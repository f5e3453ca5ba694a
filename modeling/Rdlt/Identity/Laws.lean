/-
  Rdlt.Identity.Laws

  Every row is encoded as the value it keeps. So identity tells values apart:
  encodings, tuples of them and the hashes made of them are equal only where the
  values denoted are.
-/

import Rdlt.Identity.Denotes

namespace Rdlt.Identity

open Json (JsonError Float64 textBytes plainBytes)
open Lib (withLength digitsOf)

variable {α β : Type} {index : Nat}

/-! ## A row is encoded as the value it keeps -/

theorem mem_of_cell {values : List (Option α)} {value : α} (h : cell values index = some value) :
    some value ∈ values := by
  unfold cell at h
  rw [List.getD_eq_getElem?_getD] at h
  cases hget : values[index]? with
  | none => simp [hget] at h
  | some found =>
    rw [hget, Option.getD_some] at h
    exact h ▸ List.mem_of_getElem? hget

theorem cell_writes {values : List (Option α)} {write : α → Bytes} {value : α → Value}
    {kept : Value}
    (h : kept = cellValue values index value)
    (hwrite : ∀ held, some held ∈ values → write held = (value held).write) :
    (.ok (cellBytes values index write) : Except JsonError Bytes) = .ok kept.write := by
  rw [h, cellBytes, cellValue]
  cases hcell : cell values index with
  | none => rw [Option.map_none, Option.getD_none, Value.write]
  | some held => exact congrArg _ (hwrite held (mem_of_cell hcell))

theorem integer_eq {value : ℤ} (h : value.natAbs < 10 ^ 20) :
    integer numberTag value = (Value.number (.of value 0)).write := by
  have hlength : (digitsOf value.natAbs).length ≤ plainBytes :=
    (Lib.length_digitsOf_le (by decide) h).trans (by decide)
  rw [integer, integerText_eq hlength, Value.write]

theorem decimal_eq {value scale : ℤ} (hscale : 0 ≤ scale) (hle : scale ≤ 127)
    (h : value.natAbs ≤ 2 ^ 255) : lengthOf [numberTag] (writeDecimal value scale)
      = (Value.number (.of value (-scale))).write := by
  obtain ⟨scale, rfl⟩ := Int.eq_ofNat_of_zero_le hscale
  have hdigits : (digitsOf value.natAbs).length ≤ 77 :=
    Lib.length_digitsOf_le (by decide) (h.trans_lt (by norm_num))
  have hshort : max (scale + 1) (digitsOf value.natAbs).length < plainBytes := by
    have : plainBytes = 400 := rfl
    omega
  rw [lengthOf_eq, writeDecimal_eq hshort, Value.write, List.singleton_append]

theorem float_eq (value : Float64) :
    lengthOf [numberTag] (Json.writeFloat value) = (floatValue value).write := by
  rw [lengthOf_eq, List.singleton_append]
  cases value with
  | finite shortest => rw [Json.writeFloat_finite, floatValue, Value.write]
  | nan => rw [floatValue, Value.write]; rfl
  | infinite negative => rw [floatValue, Value.write]; rfl

theorem EncoderFields.names_sublist : ∀ (fields : EncoderFields) {index : Nat}
    {members : List (Bytes × Value)}, fields.Keeps index members →
      (members.map Prod.fst).Sublist fields.names
  | .nil, index, members, h => by
    rw [show members = [] from h]
    exact List.Sublist.refl _
  | .cons name encoder rest, index, members, h => by
    rw [EncoderFields.Keeps] at h
    split at h
    · exact (rest.names_sublist h).cons _
    · obtain ⟨value, others, -, hothers, rfl⟩ := h
      exact (rest.names_sublist hothers).cons_cons _

theorem sortByName_of_sorted {named : List (Bytes × α)}
    (h : (named.map Prod.fst).Pairwise (· < ·)) : sortByName named = named := by
  unfold sortByName
  refine List.Pairwise.insertionSort_eq ?_
  rw [List.pairwise_map] at h
  exact h.imp fun hlt => hlt.le

theorem mapM_eq_ok {f : α → Except JsonError β} {l : List α} {values : List Value}
    {write : Value → β} (h : List.Forall₂ (fun a value => f a = .ok (write value)) l values) :
    l.mapM f = .ok (values.map write) := by
  induction h with
  | nil => rfl
  | cons hhead _ ih =>
    rw [List.mapM_cons, hhead, ih]
    rfl

mutual

theorem Encoder.write_eq (encoder : Encoder) {index : Nat} {kept : Value} (hs : encoder.Supported)
    (h : encoder.Keeps index kept) : encoder.write index = .ok kept.write := by
  cases encoder with
  | null =>
    rw [show kept = .null from h, Value.write]
    rfl
  | boolean values => exact cell_writes h fun held _ => by rw [Value.write]
  | integer values =>
    refine cell_writes h fun held hheld => integer_eq ?_
    have := hs held hheld
    omega
  | unsigned values =>
    refine cell_writes h fun held hheld => integer_eq ?_
    have : held < 2 ^ 64 := hs held hheld
    omega
  | float values => exact cell_writes h fun held _ => float_eq held
  | text values => exact cell_writes h fun held _ => by rw [Value.write]
  | bytes values => exact cell_writes h fun held _ => by rw [Value.write]
  | decimal values scale =>
    exact cell_writes h fun held hheld => decimal_eq hs.1 hs.2.1 (hs.2.2 held hheld)
  | temporal type values => exact cell_writes h fun held _ => by rw [Value.write, integer]
  | json values =>
    rw [Encoder.Keeps] at h
    rw [Encoder.write]
    cases hcell : cell values index with
    | none =>
      simp only [hcell] at h ⊢
      rw [h, Value.write]
    | some text =>
      simp only [hcell] at h ⊢
      exact json_eq (hs text (mem_of_cell hcell)) h
  | object nulls fields =>
    rw [Encoder.Keeps] at h
    rw [Encoder.write]
    split at h
    · next hnull => rw [if_pos hnull, h, Value.write]
    · rename_i hnull
      obtain ⟨members, hmembers, rfl⟩ := h
      have hsorted := sortByName_of_sorted (hs.1.sublist (fields.names_sublist hmembers))
      rw [if_neg hnull, fields.write_eq hs.2 hmembers, hsorted, Value.write, Fields.write_ofList]
      rfl
  | array nulls offsets items =>
    rw [Encoder.Keeps] at h
    rw [Encoder.write]
    split at h
    · next hnull => rw [if_pos hnull, h, Value.write]
    · rename_i hnull
      obtain ⟨values, hvalues, rfl⟩ := h
      have hitems := mapM_eq_ok (f := fun item => items.write item)
        (hvalues.imp fun item value hkeeps => items.write_eq hs hkeeps)
      rw [if_neg hnull, hitems, Value.write, Values.write_ofList]
      rfl

theorem EncoderFields.write_eq : ∀ (fields : EncoderFields) {index : Nat}
    {members : List (Bytes × Value)}, fields.Supported → fields.Keeps index members →
      fields.write index = .ok (members.flatMap fun member =>
        fieldTag :: (withLength member.1 ++ member.2.write))
  | .nil, index, members, _, h => by
    rw [show members = [] from h]
    rfl
  | .cons name encoder rest, index, members, hs, h => by
    rw [EncoderFields.Keeps] at h
    rw [EncoderFields.write]
    split at h
    · next hnull => rw [if_pos hnull, rest.write_eq hs.2 h]
    · rename_i hnull
      obtain ⟨value, others, hvalue, hothers, rfl⟩ := h
      rw [if_neg hnull, encoder.write_eq hs.1 hvalue, rest.write_eq hs.2 hothers,
        List.flatMap_cons, List.cons_append, List.append_assoc]
      rfl

end

/-! ## What the reader accepts keeps a value -/

theorem exists_forall₂ {r : α → β → Prop} {l : List α} (h : ∀ a ∈ l, ∃ b, r a b) :
    ∃ bs, List.Forall₂ r l bs := by
  induction l with
  | nil => exact ⟨[], .nil⟩
  | cons a l ih =>
    obtain ⟨b, hb⟩ := h a List.mem_cons_self
    obtain ⟨bs, hbs⟩ := ih fun a ha => h a (List.mem_cons_of_mem _ ha)
    exact ⟨b :: bs, .cons hb hbs⟩

mutual

theorem Encoder.exists_keeps : ∀ (encoder : Encoder) {index : Nat}, encoder.Supported →
    encoder.Accepted index → ∃ kept, encoder.Keeps index kept
  | .null, _, _, _ | .boolean _, _, _, _ | .integer _, _, _, _ | .unsigned _, _, _, _
  | .float _, _, _, _ | .text _, _, _, _ | .bytes _, _, _, _ | .decimal _ _, _, _, _
  | .temporal _ _, _, _, _ => ⟨_, rfl⟩
  | .json values, index, hs, ha => by
    simp only [Encoder.Keeps]
    cases hcell : cell values index with
    | none => exact ⟨_, rfl⟩
    | some text =>
      obtain ⟨tokens, htokens⟩ := ha text hcell
      obtain ⟨tree, -, rfl⟩ := Json.jsonText_of_accepts htokens
      exact ⟨treeValue tree, tree, htokens, rfl⟩
  | .object nulls fields, index, hs, ha => by
    simp only [Encoder.Keeps]
    by_cases hnull : nullAt nulls index = true
    · exact ⟨.null, by rw [if_pos hnull]⟩
    · obtain ⟨members, hmembers⟩ := fields.exists_keeps hs.2 (ha (Bool.eq_false_iff.mpr hnull))
      exact ⟨_, by rw [if_neg hnull]; exact ⟨members, hmembers, rfl⟩⟩
  | .array nulls offsets items, index, hs, ha => by
    simp only [Encoder.Keeps]
    by_cases hnull : nullAt nulls index = true
    · exact ⟨.null, by rw [if_pos hnull]⟩
    · obtain ⟨values, hvalues⟩ := exists_forall₂ fun item hitem =>
        items.exists_keeps hs (ha (Bool.eq_false_iff.mpr hnull) item hitem)
      exact ⟨_, by rw [if_neg hnull]; exact ⟨values, hvalues, rfl⟩⟩

theorem EncoderFields.exists_keeps : ∀ (fields : EncoderFields) {index : Nat}, fields.Supported →
    fields.Accepted index → ∃ members, fields.Keeps index members
  | .nil, _, _, _ => ⟨[], rfl⟩
  | .cons name encoder rest, index, hs, ha => by
    obtain ⟨others, hothers⟩ := rest.exists_keeps hs.2 ha.2
    simp only [EncoderFields.Keeps]
    by_cases hnull : encoder.isNull index = true
    · exact ⟨others, by rw [if_pos hnull]; exact hothers⟩
    · obtain ⟨value, hvalue⟩ := encoder.exists_keeps hs.1 (ha.1 (Bool.eq_false_iff.mpr hnull))
      exact ⟨_, by rw [if_neg hnull]; exact ⟨value, others, hvalue, hothers, rfl⟩⟩

end

/-! ## Where a row keeps what it denotes -/

theorem Values.stripped_eq_iff (items : List Value) :
    (Values.ofList items).stripped = .ofList items ↔ ∀ item ∈ items, item.stripped = item := by
  induction items with
  | nil => simp [ofList, stripped]
  | cons item rest ih =>
    rw [ofList, stripped, Values.cons.injEq, ih, List.forall_mem_cons]

def Fields.length : Fields → Nat
  | .nil => 0
  | .cons _ _ rest => rest.length + 1

theorem Fields.length_stripped_le (fields : List (Bytes × Value)) :
    (Fields.ofList fields).stripped.length ≤ (Fields.ofList fields).length := by
  induction fields with
  | nil => exact le_rfl
  | cons field rest ih =>
    rw [ofList, stripped, length]
    split
    · omega
    · rw [length]
      omega

theorem Fields.stripped_eq_iff (fields : List (Bytes × Value)) :
    (Fields.ofList fields).stripped = .ofList fields
      ↔ ∀ field ∈ fields, field.2 ≠ .null ∧ field.2.stripped = field.2 := by
  induction fields with
  | nil => simp [ofList, stripped]
  | cons field rest ih =>
    rw [ofList, stripped, List.forall_mem_cons]
    by_cases hnull : field.2 = .null
    · rw [if_pos hnull]
      refine iff_of_false (fun heq => ?_) fun h => h.1.1 hnull
      have hlength := Fields.length_stripped_le rest
      rw [heq, length] at hlength
      omega
    · rw [if_neg hnull, Fields.cons.injEq, ih]
      constructor
      · rintro ⟨-, hvalue, hrest⟩
        exact ⟨⟨hnull, hvalue⟩, hrest⟩
      · rintro ⟨⟨-, hvalue⟩, hrest⟩
        exact ⟨rfl, hvalue, hrest⟩

theorem mem_sortByName {named : List (Bytes × α)} {member : Bytes × α} :
    member ∈ sortByName named ↔ member ∈ named :=
  List.mem_insertionSort _

mutual

theorem treeValue_stripped : ∀ tree : Json.Tree, (treeValue tree).stripped = treeValue tree
  | .null => rfl
  | .bool _ => rfl
  | .number _ => rfl
  | .string _ _ => rfl
  | .array items => by
    rw [treeValue, Value.stripped, (Values.stripped_eq_iff _).mpr (itemValues_stripped items)]
  | .object members => by
    rw [treeValue, Value.stripped, (Fields.stripped_eq_iff _).mpr]
    exact fun field hfield => memberValues_stripped members field (mem_sortByName.mp hfield)

theorem itemValues_stripped :
    ∀ (items : Json.Items), ∀ item ∈ itemValues items, item.stripped = item
  | .nil, item, h => by
    rw [itemValues] at h
    cases h
  | .cons first rest, item, h => by
    rw [itemValues] at h
    rcases List.mem_cons.mp h with rfl | h
    · exact treeValue_stripped first
    · exact itemValues_stripped rest item h

theorem memberValues_stripped : ∀ (members : Json.Members), ∀ field ∈ memberValues members,
    field.2 ≠ .null ∧ field.2.stripped = field.2
  | .nil, field, h => by
    rw [memberValues] at h
    cases h
  | .cons key whole value rest, field, h => by
    rw [memberValues] at h
    split at h
    · exact memberValues_stripped rest field h
    · rename_i hnull
      rcases List.mem_cons.mp h with rfl | h
      · exact ⟨hnull, treeValue_stripped value⟩
      · exact memberValues_stripped rest field h

end

theorem Holds.stripped {text : Bytes} {value : Value} (h : Holds text value) :
    value.stripped = value := by
  obtain ⟨tree, -, rfl⟩ := h
  exact treeValue_stripped tree

theorem cellValue_stripped {value : α → Value} (h : ∀ held, (value held).stripped = value held)
    (values : List (Option α)) (index : Nat) :
    (cellValue values index value).stripped = cellValue values index value := by
  unfold cellValue
  cases cell values index with
  | none => rfl
  | some held => exact h held

theorem cellValue_ne_null {values : List (Option α)} {value : α → Value}
    (hvalue : ∀ held, value held ≠ .null) (h : (cell values index).isNone = false) :
    cellValue values index value ≠ .null := by
  unfold cellValue
  cases hcell : cell values index with
  | none => simp [hcell] at h
  | some held => exact hvalue held

theorem floatValue_stripped (value : Float64) : (floatValue value).stripped = floatValue value := by
  cases value <;> rfl

theorem floatValue_ne_null (value : Float64) : floatValue value ≠ .null := by
  cases value <;> simp [floatValue]

theorem Encoder.keeps_null_iff {encoder : Encoder} {kept : Value} (hs : encoder.Supported)
    (hnull : encoder.isNull index = false) (h : encoder.Keeps index kept) :
    kept = .null ↔ encoder.HoldsNull index := by
  cases encoder with
  | null => cases hnull
  | json values =>
    rw [Encoder.Keeps] at h
    rw [Encoder.HoldsNull]
    cases hcell : cell values index with
    | none => simp [Encoder.isNull, hcell] at hnull
    | some text =>
      simp only [hcell] at h
      constructor
      · rintro rfl
        exact ⟨text, rfl, h⟩
      · rintro ⟨text', htext', hholds⟩
        cases htext'
        have hleft := json_eq (hs text (mem_of_cell hcell)) h
        have hright := json_eq (hs text (mem_of_cell hcell)) hholds
        exact delimited_write.injective (Except.ok.inj (hleft.symm.trans hright))
  | object nulls fields =>
    have hheld : ¬ nullAt nulls index = true := Bool.eq_false_iff.mp hnull
    rw [Encoder.Keeps, if_neg hheld] at h
    obtain ⟨members, -, rfl⟩ := h
    exact iff_of_false (by simp) (by simp [HoldsNull])
  | array nulls offsets items =>
    have hheld : ¬ nullAt nulls index = true := Bool.eq_false_iff.mp hnull
    rw [Encoder.Keeps, if_neg hheld] at h
    obtain ⟨values, -, rfl⟩ := h
    exact iff_of_false (by simp) (by simp [HoldsNull])
  | float values =>
    rw [show kept = _ from h]
    exact iff_of_false (cellValue_ne_null floatValue_ne_null hnull) (by simp [HoldsNull])
  | _ =>
    rw [show kept = _ from h]
    exact iff_of_false (cellValue_ne_null (by simp) hnull) (by simp [HoldsNull])

theorem forall₂_iff {r : α → β → Prop} {p : β → Prop} {q : α → Prop} {l : List α} {bs : List β}
    (h : List.Forall₂ r l bs) (hiff : ∀ a b, r a b → (p b ↔ q a)) :
    (∀ b ∈ bs, p b) ↔ ∀ a ∈ l, q a := by
  induction h with
  | nil => simp
  | cons hab _ ih => rw [List.forall_mem_cons, List.forall_mem_cons, hiff _ _ hab, ih]

mutual

/-- A row keeps what it denotes exactly where no field it holds is a text of JSON's null. -/
theorem Encoder.stripped_iff_plain (encoder : Encoder) {index : Nat} {kept : Value}
    (hs : encoder.Supported) (h : encoder.Keeps index kept) :
    kept.stripped = kept ↔ encoder.Plain index := by
  cases encoder with
  | null =>
    rw [show kept = .null from h]
    exact iff_of_true rfl trivial
  | float values =>
    rw [show kept = _ from h]
    exact iff_of_true (cellValue_stripped floatValue_stripped _ _) trivial
  | json values =>
    rw [Encoder.Keeps] at h
    refine iff_of_true ?_ trivial
    cases hcell : cell values index with
    | none =>
      simp only [hcell] at h
      rw [h]
      rfl
    | some text =>
      simp only [hcell] at h
      exact h.stripped
  | object nulls fields =>
    rw [Encoder.Keeps] at h
    rw [Encoder.Plain]
    split at h
    · rename_i hnull
      rw [h]
      exact iff_of_true rfl fun hheld => absurd hnull (Bool.eq_false_iff.mp hheld)
    · rename_i hnull
      obtain ⟨members, hmembers, rfl⟩ := h
      rw [Value.stripped, Value.object.injEq, Fields.stripped_eq_iff,
        forall_prop_of_true (Bool.eq_false_iff.mpr hnull),
        ← fields.stripped_iff_plain hs.2 hmembers]
      exact forall_congr' fun field => by rw [mem_sortByName]
  | array nulls offsets items =>
    rw [Encoder.Keeps] at h
    rw [Encoder.Plain]
    split at h
    · rename_i hnull
      rw [h]
      exact iff_of_true rfl fun hheld => absurd hnull (Bool.eq_false_iff.mp hheld)
    · rename_i hnull
      obtain ⟨values, hvalues, rfl⟩ := h
      rw [Value.stripped, Value.array.injEq, Values.stripped_eq_iff,
        forall_prop_of_true (Bool.eq_false_iff.mpr hnull)]
      exact forall₂_iff hvalues fun item value hkeeps => items.stripped_iff_plain hs hkeeps
  | _ =>
    rw [show kept = _ from h]
    exact iff_of_true (cellValue_stripped (fun _ => rfl) _ _) trivial

theorem EncoderFields.stripped_iff_plain : ∀ (fields : EncoderFields) {index : Nat}
    {members : List (Bytes × Value)}, fields.Supported → fields.Keeps index members →
      ((∀ field ∈ members, field.2 ≠ .null ∧ field.2.stripped = field.2) ↔ fields.Plain index)
  | .nil, index, members, _, h => by
    rw [show members = [] from h]
    exact iff_of_true (fun field hfield => absurd hfield List.not_mem_nil) trivial
  | .cons name encoder rest, index, members, hs, h => by
    rw [EncoderFields.Keeps] at h
    rw [EncoderFields.Plain]
    split at h
    · rename_i hnull
      rw [rest.stripped_iff_plain hs.2 h]
      exact ⟨fun hrest => ⟨fun hheld => absurd hnull (Bool.eq_false_iff.mp hheld), hrest⟩,
        fun hboth => hboth.2⟩
    · rename_i hnull
      obtain ⟨value, others, hvalue, hothers, rfl⟩ := h
      have hheld := Bool.eq_false_iff.mpr hnull
      rw [List.forall_mem_cons, rest.stripped_iff_plain hs.2 hothers,
        forall_prop_of_true hheld, ← Encoder.keeps_null_iff hs.1 hheld hvalue,
        encoder.stripped_iff_plain hs.1 hvalue]

end

end Rdlt.Identity
