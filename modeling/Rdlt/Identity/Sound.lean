/-
  Rdlt.Identity.Sound

  Identity tells values apart, and where it depends on what carries a value. Two
  rows that denote different values never encode alike, nor do two keys, and so
  equal hashes mean equal keys or rows.
-/

import Rdlt.Identity.Laws

namespace Rdlt.Identity

open Json (Reader)

variable {Id : Type} {blake3 : Bytes → Id}

/-! ## Objects are told by their fields, in whatever order -/

variable (fields : List (Bytes × Encoder))

theorem pairwise_sortByName {α : Type} (named : List (Bytes × α)) :
    (sortByName named).Pairwise fun left right => left.1 ≤ right.1 := by
  have : Std.Total fun left right : Bytes × α => left.1 ≤ right.1 := ⟨fun a b => le_total a.1 b.1⟩
  have : IsTrans (Bytes × α) fun left right => left.1 ≤ right.1 := ⟨fun _ _ _ => le_trans⟩
  exact List.pairwise_insertionSort _ named

theorem EncoderFields.names_ofList : (EncoderFields.ofList fields).names = fields.map Prod.fst := by
  induction fields with
  | nil => rfl
  | cons field rest ih => rw [ofList, names, ih, List.map_cons]

theorem EncoderFields.supported_ofList :
    (EncoderFields.ofList fields).Supported ↔ ∀ field ∈ fields, field.2.Supported := by
  induction fields with
  | nil => simp [ofList, Supported]
  | cons field rest ih => rw [ofList, Supported, ih, List.forall_mem_cons]

theorem Encoder.supported_ofFields {nulls : Option (List Bool)} {fields : List (Bytes × Encoder)}
    (hdistinct : (fields.map Prod.fst).Nodup) (h : ∀ field ∈ fields, field.2.Supported) :
    (Encoder.ofFields nulls fields).Supported := by
  refine ⟨?_, (EncoderFields.supported_ofList _).mpr fun field hfield =>
    h field (mem_sortByName.mp hfield)⟩
  rw [EncoderFields.names_ofList]
  have hnodup : ((sortByName fields).map Prod.fst).Nodup :=
    ((List.perm_insertionSort _ fields).map Prod.fst).nodup_iff.mpr hdistinct
  have hle : ((sortByName fields).map Prod.fst).Pairwise (· ≤ ·) :=
    List.pairwise_map.mpr (pairwise_sortByName fields)
  exact (hle.and hnodup).imp fun h => lt_of_le_of_ne h.1 h.2

/-! ## Values are told apart -/

theorem forall₂_keeps {encoders : List Encoder} {index : Nat} {values : List Value}
    (h : List.Forall₂ (fun encoder value => encoder.Denotes index value) encoders values) :
    ∃ kepts, List.Forall₂ (fun encoder kept => encoder.Keeps index kept) encoders kepts ∧
      values = kepts.map Value.stripped := by
  induction h with
  | nil => exact ⟨[], .nil, rfl⟩
  | cons hhead _ ih =>
    obtain ⟨kept, hkept, rfl⟩ := hhead
    obtain ⟨kepts, hkepts, rfl⟩ := ih
    exact ⟨kept :: kepts, .cons hkept hkepts, rfl⟩

theorem rowBytes_eq {encoders : List Encoder} {index : Nat} {kepts : List Value}
    (hs : ∀ encoder ∈ encoders, encoder.Supported)
    (h : List.Forall₂ (fun encoder kept => encoder.Keeps index kept) encoders kepts) :
    rowBytes encoders index = .ok (kepts.flatMap Value.write) := by
  have hwrites :
      List.Forall₂ (fun encoder kept => Encoder.write encoder index = .ok (Value.write kept))
      encoders kepts := by
    induction h with
    | nil => exact .nil
    | cons hhead _ ih =>
      rw [List.forall_mem_cons] at hs
      exact .cons (Encoder.write_eq _ hs.1 hhead) (ih hs.2)
  rw [rowBytes, mapM_eq_ok hwrites, List.flatMap_def]
  rfl

theorem write_starts {a b : Encoder} {i j : Nat} {v w : Value} (ha : a.Supported) (hb : b.Supported)
    (hv : a.Denotes i v) (hw : b.Denotes j w) :
    ∃ x y, a.write i = .ok x ∧ b.write j = .ok y ∧ (x <+: y → x = y ∧ v = w) := by
  obtain ⟨kept, hkept, rfl⟩ := hv
  obtain ⟨kept', hkept', rfl⟩ := hw
  refine ⟨_, _, a.write_eq ha hkept, b.write_eq hb hkept', fun hstarts => ?_⟩
  rw [delimited_write.eq_of_prefix hstarts]
  exact ⟨rfl, rfl⟩

theorem rowBytes_inj {key key' : List Encoder} {i j : Nat} {vs ws : List Value}
    (hlength : key.length = key'.length) (hs : ∀ encoder ∈ key, encoder.Supported)
    (hs' : ∀ encoder ∈ key', encoder.Supported)
    (hv : List.Forall₂ (fun encoder value => encoder.Denotes i value) key vs)
    (hw : List.Forall₂ (fun encoder value => encoder.Denotes j value) key' ws) :
    ∃ x y, rowBytes key i = .ok x ∧ rowBytes key' j = .ok y ∧ (x = y → vs = ws) := by
  obtain ⟨kepts, hkepts, rfl⟩ := forall₂_keeps hv
  obtain ⟨kepts', hkepts', rfl⟩ := forall₂_keeps hw
  refine ⟨_, _, rowBytes_eq hs hkepts, rowBytes_eq hs' hkepts', fun heq => ?_⟩
  rw [delimited_write.eq_of_flatMap ?_ heq]
  rw [← hkepts.length_eq, ← hkepts'.length_eq, hlength]

theorem hash_inj (hblake3 : Function.Injective blake3) {domain : Domain} {x y : Bytes}
    (h : hash blake3 domain x = hash blake3 domain y) : x = y :=
  (List.cons.inj (hblake3 h)).2

/-- Two rows that denote different values never encode alike and neither encoding starts the other;
    nor do keys of as many values; so equal root ids mean equal keys and equal version hashes equal
    rows. -/
theorem identity_tells_values_apart (hblake3 : Function.Injective blake3) :
    (∀ {a b : Encoder} {i j : Nat} {v w : Value}, a.Supported → b.Supported → a.Denotes i v →
        b.Denotes j w → ∃ x y, a.write i = .ok x ∧ b.write j = .ok y ∧ (x <+: y → x = y ∧ v = w)) ∧
      (∀ {key key' : List Encoder} {i j : Nat} {vs ws : List Value}, key.length = key'.length →
        (∀ encoder ∈ key, encoder.Supported) → (∀ encoder ∈ key', encoder.Supported) →
        List.Forall₂ (fun encoder value => encoder.Denotes i value) key vs →
        List.Forall₂ (fun encoder value => encoder.Denotes j value) key' ws →
          (∃ x y, rowBytes key i = .ok x ∧ rowBytes key' j = .ok y ∧ (x = y → vs = ws)) ∧
            ∃ x y, rootId blake3 key i = .ok x ∧ rootId blake3 key' j = .ok y ∧ (x = y → vs = ws)) ∧
      (∀ {columns columns' : List (Bytes × Encoder)} {i j : Nat} {v w : Value},
        (Encoder.ofFields none columns).Supported → (Encoder.ofFields none columns').Supported →
        (Encoder.ofFields none columns).Denotes i v → (Encoder.ofFields none columns').Denotes j w →
          ∃ x y, versionHash blake3 columns i = .ok x ∧ versionHash blake3 columns' j = .ok y ∧
            (x = y → v = w)) := by
  refine ⟨write_starts, ?_, ?_⟩
  · intro key key' i j vs ws hlength hs hs' hv hw
    obtain ⟨x, y, hx, hy, hinj⟩ := rowBytes_inj hlength hs hs' hv hw
    refine ⟨⟨x, y, hx, hy, hinj⟩, hash blake3 .root x, hash blake3 .root y, ?_, ?_,
      fun heq => hinj (hash_inj hblake3 heq)⟩
    · rw [rootId, hx]
      rfl
    · rw [rootId, hy]
      rfl
  · intro columns columns' i j v w hs hs' hv hw
    have hlength :
        [Encoder.ofFields none columns].length = [Encoder.ofFields none columns'].length :=
      rfl
    obtain ⟨x, y, hx, hy, hinj⟩ := rowBytes_inj hlength (by simpa using hs) (by simpa using hs')
      (.cons hv .nil) (.cons hw .nil)
    refine ⟨hash blake3 .version x, hash blake3 .version y, ?_, ?_,
      fun heq => (List.cons.inj (hinj (hash_inj hblake3 heq))).1⟩
    · rw [versionHash, hx]
      rfl
    · rw [versionHash, hy]
      rfl

def nullText : Bytes := [110, 117, 108, 108]

theorem holds_nullText : Holds nullText .null := by
  have hnext : (Reader.new nullText).next = .ok (some (.null, ⟨[], [], .separator⟩)) := by decide
  have hend : (Reader.mk [] [] .separator).next = .ok none := by decide
  exact ⟨.null, .token hnext (.done hend), rfl⟩

/-- A key of one and a key that is JSON's null, with the bytes hashed standing for their hash. -/
theorem identity_tells_values_apart_one_null :
    ∃ x y, rootId id [.integer [some 1]] 0 = .ok x ∧ rootId id [.json [some nullText]] 0 = .ok y ∧
      (x = y → [Value.number (.of 1 0)] = [Value.null]) := by
  have hlength : [Encoder.integer [some 1]].length = [Encoder.json [some nullText]].length := rfl
  refine ((identity_tells_values_apart Function.injective_id).2.1 hlength ?_ ?_ ?_ ?_).2
  · intro encoder hencoder
    rw [List.mem_singleton.mp hencoder]
    intro value hvalue
    cases List.mem_singleton.mp hvalue
    decide
  · intro encoder hencoder
    rw [List.mem_singleton.mp hencoder]
    intro text htext
    cases List.mem_singleton.mp htext
    decide
  · exact .cons ⟨_, rfl, rfl⟩ .nil
  · exact .cons ⟨.null, holds_nullText, rfl⟩ .nil

/-! ## Where what carries a value shows -/

/-- The encodings of two rows that denote one value. They do not fail, whatever text the reader
    accepts. Each is the encoding of the value denoted exactly where no field of a struct that is
    not null is a text of JSON's null; so where neither row holds such a field the two are equal,
    and where one of them alone does they differ. -/
theorem carriers_encode_alike_iff {a b : Encoder} {i j : Nat} {value : Value} (ha : a.Supported)
    (hb : b.Supported) (hvalue : a.Denotes i value) (hvalue' : b.Denotes j value) :
    (∀ (encoder : Encoder) (index : Nat), encoder.Supported → encoder.Accepted index →
      ∃ bytes, encoder.write index = .ok bytes) ∧
    (a.write i = .ok value.write ↔ a.Plain i) ∧
    (b.write j = .ok value.write ↔ b.Plain j) ∧
    (a.Plain i ∨ b.Plain j → (a.write i = b.write j ↔ a.Plain i ∧ b.Plain j)) := by
  have hplain : ∀ {encoder : Encoder} {index : Nat}, encoder.Supported →
      encoder.Denotes index value →
      (encoder.write index = .ok value.write ↔ encoder.Plain index) := by
    rintro encoder index hs ⟨kept, hkept, rfl⟩
    rw [encoder.write_eq hs hkept, ← encoder.stripped_iff_plain hs hkept]
    constructor
    · intro heq
      exact (delimited_write.injective (Except.ok.inj heq)).symm
    · intro heq
      rw [heq]
  have hplain_a := hplain ha hvalue
  have hplain_b := hplain hb hvalue'
  refine ⟨?_, hplain_a, hplain_b, ?_⟩
  · intro encoder index hs haccepted
    obtain ⟨kept, hkept⟩ := encoder.exists_keeps hs haccepted
    exact ⟨_, encoder.write_eq hs hkept⟩
  · rw [← hplain_a, ← hplain_b]
    rintro (hone | hone)
    · rw [hone, and_iff_right rfl, eq_comm]
    · rw [hone, and_iff_left rfl]

/-- A struct's only field, whose text is JSON's null, and the same field null. -/
def nullTextField : Encoder := .ofFields none [([97], .json [some nullText])]
def nullField : Encoder := .ofFields none [([97], .json [none])]

theorem supported_nullTextField : nullTextField.Supported := by
  refine Encoder.supported_ofFields (by decide) ?_
  intro field hfield
  rw [List.mem_singleton.mp hfield]
  intro text htext
  cases List.mem_singleton.mp htext
  decide

theorem supported_nullField : nullField.Supported := by
  refine Encoder.supported_ofFields (by decide) ?_
  intro field hfield
  rw [List.mem_singleton.mp hfield]
  intro text htext
  cases List.mem_singleton.mp htext

theorem denotes_nullTextField : nullTextField.Denotes 0 (.object .nil) :=
  ⟨.object (.cons [97] .null .nil),
    ⟨[([97], .null)], ⟨.null, [], holds_nullText, rfl, rfl⟩, rfl⟩, rfl⟩

theorem denotes_nullField : nullField.Denotes 0 (.object .nil) :=
  ⟨.object .nil, ⟨[], rfl, rfl⟩, rfl⟩

theorem null_text_field_encodes_otherwise :
    nullTextField.Supported ∧ nullField.Supported ∧ nullTextField.Denotes 0 (.object .nil) ∧
      nullField.Denotes 0 (.object .nil) ∧ nullTextField.write 0 ≠ nullField.write 0 :=
  ⟨supported_nullTextField, supported_nullField, denotes_nullTextField, denotes_nullField,
    by decide +kernel⟩

/-- A null field encodes as the empty object it denotes, and the text of JSON's null does not. -/
theorem carriers_encode_alike_iff_null_text :
    (nullTextField.write 0 = .ok (Value.object .nil).write ↔ nullTextField.Plain 0) ∧
      (nullField.write 0 = .ok (Value.object .nil).write ↔ nullField.Plain 0) ∧
      ¬ nullTextField.Plain 0 ∧ nullField.Plain 0 := by
  have h := carriers_encode_alike_iff supported_nullTextField supported_nullField
    denotes_nullTextField denotes_nullField
  refine ⟨h.2.1, h.2.2.1, ?_, ?_⟩
  · intro hplain
    exact ((hplain rfl).1 rfl).1 ⟨nullText, rfl, holds_nullText⟩
  · intro _
    exact ⟨fun hnull => absurd hnull (by decide), trivial⟩

end Rdlt.Identity
