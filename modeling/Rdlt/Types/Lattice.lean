/-
  Rdlt.Types.Lattice

  Logical types form a semilattice under their join: it is associative,
  commutative and idempotent, null is its identity and json absorbs every type.
-/

import Rdlt.Types.Logical
import Rdlt.Lib.Tidy

namespace Rdlt.Types

open Lib

namespace LogicalType

variable {i s j t : Nat} {whole whole' : Bool}

variable {a b c : LogicalType}

/-! ## Identity, absorption -/

@[simp] theorem join_self (a : LogicalType) : a.join a = a := by
  unfold LogicalType.join
  rw [if_pos rfl]

@[simp] theorem null_join (a : LogicalType) : LogicalType.null.join a = a := by
  cases a <;> rfl

@[simp] theorem join_null (a : LogicalType) : a.join .null = a := by
  cases a <;> rfl

@[simp] theorem json_join (a : LogicalType) : LogicalType.json.join a = .json := by
  cases a <;> rfl

@[simp] theorem join_json (a : LogicalType) : a.join .json = .json := by
  cases a <;> rfl

/-! ## Components -/

/-- What types join to something other than json. -/
inductive Component where
  | null | json | bool | number | utf8 | binary | moment | time | duration | uuid | struct | list
  deriving DecidableEq, Repr

def component : LogicalType → Component
  | .null => .null
  | .bool => .bool
  | .int8 | .int16 | .int32 | .int64 | .float32 | .float64 | .decimal _ => .number
  | .utf8 => .utf8
  | .binary => .binary
  | .date | .timestamp _ _ => .moment
  | .time _ => .time
  | .duration _ => .duration
  | .uuid => .uuid
  | .json => .json
  | .struct _ => .struct
  | .list _ _ _ => .list

theorem join_of_ne (ha : a ≠ .null) (hb : b ≠ .null) (h : a.component ≠ b.component) :
    a.join b = .json := by
  cases a <;> cases b <;>
    first | exact absurd rfl h | exact absurd rfl ha | exact absurd rfl hb | rfl

/-! ## Types that do not nest -/

def scalar : LogicalType → Prop
  | .struct _ | .list _ _ _ => False
  | _ => True

theorem joinDecimals_comm (d e : DecimalType) : joinDecimals d (e.precision - e.scale) e.scale
    = joinDecimals e (d.precision - d.scale) d.scale := by
  rw [joinDecimals, joinDecimals, max_comm, max_comm d.scale]

theorem joinScalars_comm (a b : LogicalType) (hne : a ≠ b) : joinScalars a b = joinScalars b a := by
  cases a <;> cases b <;> first
    | rfl
    | exact joinDecimals_comm _ _
    | (simp only [joinScalars, integerDigits, isNumericFloatMix, isFloat]; grind)

theorem scalar_comm (ha : a.scalar) : a.join b = b.join a := by
  by_cases hsame : a = b
  · rw [hsame]
  · unfold LogicalType.join
    rw [if_neg hsame, if_neg (Ne.symm hsame)]
    cases a <;> cases b <;> first | rfl | exact joinScalars_comm _ _ hsame | cases ha

/-! ## Numbers -/

/-- The numbers but for decimals. -/
def plain : List LogicalType := [.int8, .int16, .int32, .int64, .float32, .float64]

theorem plain_assoc : ∀ a ∈ plain, ∀ b ∈ plain, ∀ c ∈ plain,
    (a.join b).join c = a.join (b.join c) := by
  decide +kernel

/-- The type that holds `digits` before and `scale` after the point. -/
def ofDigits (digits scale : Nat) : LogicalType :=
  ((DecimalType.new (digits + scale) scale).map LogicalType.decimal).getD .json

/-- The digits of an exact number before and after its point. -/
def digits : LogicalType → Option (Nat × Nat)
  | .decimal d => some (d.precision - d.scale, d.scale)
  | a => a.integerDigits.map fun digits => (digits, 0)

/-- The type holds exactly the digits given, as a decimal does, or is json where no decimal can. -/
def Spans (a : LogicalType) (digits scale : Nat) : Prop :=
  a = ofDigits digits scale ∧ digits + scale ≠ 0

theorem ofDigits_of_le {digits scale : Nat} (hne : digits + scale ≠ 0)
    (h : digits + scale ≤ maxDecimalPrecision) :
    ∃ d : DecimalType, ofDigits digits scale = .decimal d ∧ d.precision - d.scale = digits ∧
      d.scale = scale := by
  refine ⟨⟨digits + scale, scale, hne, h, Nat.le_add_left _ _⟩, ?_, Nat.add_sub_cancel _ _, rfl⟩
  rw [ofDigits, DecimalType.new, dif_pos ⟨hne, h, Nat.le_add_left _ _⟩]
  rfl

theorem ofDigits_of_lt {digits scale : Nat} (h : maxDecimalPrecision < digits + scale) :
    ofDigits digits scale = .json := by
  rw [ofDigits, DecimalType.new, dif_neg fun hfits => absurd hfits.2.1 (not_le.mpr h)]
  rfl

theorem spans_decimal (d : DecimalType) : Spans (.decimal d) (d.precision - d.scale) d.scale := by
  have hsum : d.precision - d.scale + d.scale = d.precision := Nat.sub_add_cancel d.scaled
  have hne : d.precision - d.scale + d.scale ≠ 0 := by
    rw [hsum]
    exact d.positive
  obtain ⟨e, he, hdigits, hscale⟩ := ofDigits_of_le hne (by
    rw [hsum]
    exact d.bounded)
  refine ⟨?_, hne⟩
  have hprecision : e.precision = d.precision := by
    have := Nat.sub_add_cancel e.scaled
    omega
  rw [he]
  obtain ⟨precision, scale, _, _, _⟩ := d
  obtain ⟨precision', scale', _, _, _⟩ := e
  obtain rfl : precision' = precision := hprecision
  obtain rfl : scale' = scale := hscale
  rfl

theorem decimal_join (d : DecimalType) (hb : b.digits = some (i, s)) :
    (LogicalType.decimal d).join b = ofDigits (max (d.precision - d.scale) i) (max d.scale s) := by
  by_cases hsame : LogicalType.decimal d = b
  · subst hsame
    cases hb
    rw [join_self, max_self, max_self]
    exact (spans_decimal d).1
  · unfold LogicalType.join
    rw [if_neg hsame]
    cases b <;>
      first
        | (cases hb; rfl)
        | cases hb

theorem Spans.join (ha : Spans a i s) (hb : b.digits = some (j, t)) :
    Spans (a.join b) (max i j) (max s t) := by
  obtain ⟨rfl, hne⟩ := ha
  refine ⟨?_, by omega⟩
  by_cases hfits : i + s ≤ maxDecimalPrecision
  · obtain ⟨d, hd, rfl, rfl⟩ := ofDigits_of_le hne hfits
    rw [hd, decimal_join d hb]
  · rw [ofDigits_of_lt (not_le.mp hfits), json_join, ofDigits_of_lt (by omega)]

theorem Spans.join_right (ha : a.digits = some (i, s)) (hb : Spans b j t) :
    Spans (a.join b) (max i j) (max s t) := by
  have hscalar : a.scalar := by
    cases a <;> first | (cases ha; done) | trivial
  rw [scalar_comm hscalar, max_comm i, max_comm s]
  exact hb.join ha

theorem Spans.join_spans (ha : Spans a i s) (hb : Spans b j t) :
    Spans (a.join b) (max i j) (max s t) := by
  obtain ⟨rfl, hne⟩ := hb
  by_cases hfits : j + t ≤ maxDecimalPrecision
  · obtain ⟨d, hd, rfl, rfl⟩ := ofDigits_of_le hne hfits
    rw [hd]
    exact ha.join rfl
  · rw [ofDigits_of_lt (not_le.mp hfits), join_json]
    have := ha.2
    exact ⟨(ofDigits_of_lt (by omega)).symm, by omega⟩

theorem Spans.eq (ha : Spans a i s) (hb : Spans b j t) (hi : i = j) (hs : s = t) : a = b := by
  rw [ha.1, hb.1, hi, hs]

/-- An exact number's digits; it is an integer type where `whole`, and where not a decimal or the
    json that stands for one too wide. -/
def Exact (whole : Bool) (a : LogicalType) (digits scale : Nat) : Prop :=
  if whole then a.integerDigits.isSome ∧ a.digits = some (digits, scale)
  else Spans a digits scale

theorem mem_plain_of_integer (h : a.integerDigits.isSome) : a ∈ plain := by
  cases a <;> first | (cases h; done) | simp [plain]

theorem plain_integers : ∀ a ∈ plain, ∀ b ∈ plain, a.integerDigits.isSome → b.integerDigits.isSome →
    (a.join b).integerDigits.isSome ∧
      (a.join b).digits = some (max (a.integerDigits.getD 0) (b.integerDigits.getD 0), 0) := by
  decide +kernel

theorem digits_of_integer {n : Nat} (h : a.integerDigits = some n) : a.digits = some (n, 0) := by
  cases a <;> first | (cases h; rfl) | cases h

theorem Exact.join (ha : Exact whole a i s)
    (hb : Exact whole' b j t) : Exact (whole && whole') (a.join b) (max i j) (max s t) := by
  cases whole with
  | true =>
    obtain ⟨ha, hdigits⟩ := ha
    cases whole' with
    | true =>
      obtain ⟨hb, hdigits'⟩ := hb
      obtain ⟨m, hm⟩ := Option.isSome_iff_exists.mp ha
      obtain ⟨n, hn⟩ := Option.isSome_iff_exists.mp hb
      obtain ⟨rfl, rfl⟩ := Prod.mk.inj (Option.some.inj (hdigits.symm.trans (digits_of_integer hm)))
      obtain ⟨rfl, rfl⟩ := Prod.mk.inj
        (Option.some.inj (hdigits'.symm.trans (digits_of_integer hn)))
      have h := plain_integers a (mem_plain_of_integer ha) b (mem_plain_of_integer hb) ha hb
      rwa [hm, hn] at h
    | false => exact Spans.join_right hdigits hb
  | false =>
    cases whole' with
    | true => exact Spans.join ha hb.2
    | false => exact Spans.join_spans ha hb

theorem Exact.assoc {whole'' : Bool} {k u : Nat} (ha : Exact whole a i s)
    (hb : Exact whole' b j t) (hc : Exact whole'' c k u) :
    (a.join b).join c = a.join (b.join c) := by
  have hleft := (ha.join hb).join hc
  have hright := ha.join (hb.join hc)
  rw [Bool.and_assoc] at hleft
  cases hwhole : whole && (whole' && whole'') with
  | true =>
    simp only [Bool.and_eq_true] at hwhole
    obtain ⟨rfl, rfl, rfl⟩ := hwhole
    exact plain_assoc a (mem_plain_of_integer ha.1) b (mem_plain_of_integer hb.1) c
      (mem_plain_of_integer hc.1)
  | false =>
    rw [hwhole] at hleft hright
    exact Spans.eq hleft hright (max_assoc i j k) (max_assoc s t u)

theorem exact_or_float (h : a.component = .number) :
    (∃ whole i s, Exact whole a i s) ∨ a.isFloat := by
  cases a with
  | decimal d => exact .inl ⟨false, _, _, spans_decimal d⟩
  | float32 | float64 => exact .inr rfl
  | int8 | int16 | int32 | int64 => exact .inl ⟨true, _, _, rfl, rfl⟩
  | _ => cases h

theorem plain_or_decimal (h : a.component = .number) : a ∈ plain ∨ ∃ d, a = .decimal d := by
  cases a <;> first | (cases h; done) | exact .inr ⟨_, rfl⟩ | exact .inl (by simp [plain])

def floating : LogicalType → Bool
  | .float32 | .float64 | .json => true
  | _ => false

def fixed : LogicalType → Bool
  | .decimal _ | .json => true
  | _ => false

/-- A number, or the json two of them meet at. -/
def numeric (a : LogicalType) : Prop := a.component = .number ∨ a = .json

theorem eq_json_of_floating_of_fixed (h : a.floating) (h' : a.fixed) : a = .json := by
  cases a <;> first | rfl | (cases h; done) | cases h'

theorem fixed_ofDigits (digits scale : Nat) : (ofDigits digits scale).fixed := by
  rw [ofDigits]
  cases DecimalType.new (digits + scale) scale <;> rfl

theorem numeric_ofDigits (digits scale : Nat) : (ofDigits digits scale).numeric := by
  rw [ofDigits]
  cases DecimalType.new (digits + scale) scale
  · exact .inr rfl
  · exact .inl rfl

theorem float_join_decimal (h : a.isFloat) (d : DecimalType) : a.join (.decimal d) = .json := by
  cases a <;> first | rfl | cases h

theorem plain_join : ∀ a ∈ plain, ∀ b ∈ plain, ((a.join b).component = .number ∨ a.join b = .json) ∧
      (a.floating ∨ b.floating → (a.join b).floating) ∧ ¬ (a.fixed ∨ b.fixed) := by
  decide +kernel

theorem join_decimal_cases (ha : a.component = .number) (d : DecimalType) :
    (a.join (.decimal d)).fixed ∧ (a.join (.decimal d)).numeric ∧
      (a.floating → a.join (.decimal d) = .json) := by
  rcases exact_or_float ha with ⟨whole, i, s, hexact⟩ | hfloat
  · have hjoin : Exact (whole && false) (a.join (.decimal d)) _ _ := hexact.join (spans_decimal d)
    rw [Bool.and_false] at hjoin
    refine ⟨hjoin.1 ▸ fixed_ofDigits _ _, hjoin.1 ▸ numeric_ofDigits _ _, fun hfloating => ?_⟩
    cases a <;> first | rfl | cases hfloating
  · rw [float_join_decimal hfloat]
    exact ⟨rfl, .inr rfl, fun _ => rfl⟩

theorem decimal_join_cases (d : DecimalType) (hb : b.component = .number) :
    ((LogicalType.decimal d).join b).fixed ∧ ((LogicalType.decimal d).join b).numeric ∧
      (b.floating → (LogicalType.decimal d).join b = .json) :=
  scalar_comm (a := .decimal d) trivial ▸ join_decimal_cases hb d

/-- Numbers join to a number or to json; to a float or json where one of them is a float, and to a
    decimal or json where one is a decimal. -/
theorem numeric_join (ha : a.numeric) (hb : b.numeric) :
    (a.join b).numeric ∧ (a.floating ∨ b.floating → (a.join b).floating) ∧
      (a.fixed ∨ b.fixed → (a.join b).fixed) := by
  rcases ha with ha | rfl
  · rcases hb with hb | rfl
    · rcases plain_or_decimal ha with hplain | ⟨d, rfl⟩
      · rcases plain_or_decimal hb with hplain' | ⟨e, rfl⟩
        · obtain ⟨hnumeric, hfloating, hfixed⟩ := plain_join a hplain b hplain'
          exact ⟨hnumeric, hfloating, fun h => absurd h hfixed⟩
        · obtain ⟨hfixed, hnumeric, hjson⟩ := join_decimal_cases ha e
          refine ⟨hnumeric, fun h => ?_, fun _ => hfixed⟩
          rw [hjson (h.resolve_right nofun)]
          rfl
      · obtain ⟨hfixed, hnumeric, hjson⟩ := decimal_join_cases d hb
        refine ⟨hnumeric, fun h => ?_, fun _ => hfixed⟩
        rw [hjson (h.resolve_left nofun)]
        rfl
    · rw [join_json]
      exact ⟨.inr rfl, fun _ => rfl, fun _ => rfl⟩
  · rw [json_join]
    exact ⟨.inr rfl, fun _ => rfl, fun _ => rfl⟩

theorem floating_of_isFloat (h : a.isFloat) : a.floating := by
  cases a <;> first | rfl | cases h

theorem number_assoc (ha : a.component = .number) (hb : b.component = .number)
    (hc : c.component = .number) : (a.join b).join c = a.join (b.join c) := by
  have hab := numeric_join (.inl ha) (.inl hb)
  have hbc := numeric_join (.inl hb) (.inl hc)
  have hleft := numeric_join hab.1 (.inl hc)
  have hright := numeric_join (.inl ha) hbc.1
  by_cases hfloats : a.floating ∨ b.floating ∨ c.floating
  · by_cases hfixed : a.fixed ∨ b.fixed ∨ c.fixed
    · -- floats and decimals meet at json, however they are joined
      have h : (a.join b).join c = .json := by
        refine eq_json_of_floating_of_fixed (hleft.2.1 ?_) (hleft.2.2 ?_)
        · exact (or_assoc.mpr hfloats).imp_left hab.2.1
        · exact (or_assoc.mpr hfixed).imp_left hab.2.2
      have h' : a.join (b.join c) = .json := by
        refine eq_json_of_floating_of_fixed (hright.2.1 ?_) (hright.2.2 ?_)
        · exact hfloats.imp_right hbc.2.1
        · exact hfixed.imp_right hbc.2.2
      rw [h, h']
    · have hplain : ∀ {x : LogicalType}, x.component = .number → x.fixed = false → x ∈ plain := by
        intro x hx hnot
        refine (plain_or_decimal hx).resolve_right ?_
        rintro ⟨d, rfl⟩
        cases hnot
      simp only [not_or, Bool.not_eq_true] at hfixed
      exact plain_assoc a (hplain ha hfixed.1) b (hplain hb hfixed.2.1) c (hplain hc hfixed.2.2)
  · have hexact : ∀ {x : LogicalType}, x.component = .number → x.floating = false →
        ∃ whole i s, Exact whole x i s := by
      intro x hx hnot
      refine (exact_or_float hx).resolve_right fun hfloat => ?_
      rw [floating_of_isFloat hfloat] at hnot
      cases hnot
    simp only [not_or, Bool.not_eq_true] at hfloats
    obtain ⟨_, _, _, ha⟩ := hexact ha hfloats.1
    obtain ⟨_, _, _, hb⟩ := hexact hb hfloats.2.1
    obtain ⟨_, _, _, hc⟩ := hexact hc hfloats.2.2
    exact ha.assoc hb hc

/-! ## Instants, times and durations -/

def joinZones (zone zone' : Option String) : Option String :=
  if zone = zone' then zone else some "UTC"

@[simp] theorem joinZones_self (zone : Option String) : joinZones zone zone = zone := if_pos rfl

theorem joinZones_assoc (zone zone' zone'' : Option String) :
    joinZones (joinZones zone zone') zone'' = joinZones zone (joinZones zone' zone'') := by
  grind [joinZones]

theorem timestamp_join (unit unit' : TimeUnit) (zone zone' : Option String) :
    (LogicalType.timestamp unit zone).join (.timestamp unit' zone')
      = .timestamp (max unit unit') (joinZones zone zone') := by
  by_cases hsame : LogicalType.timestamp unit zone = .timestamp unit' zone'
  · obtain ⟨rfl, rfl⟩ := LogicalType.timestamp.inj hsame
    rw [join_self, max_self, joinZones_self]
  · unfold LogicalType.join
    rw [if_neg hsame]
    rfl

theorem time_join (unit unit' : TimeUnit) :
    (LogicalType.time unit).join (.time unit') = .time (max unit unit') := by
  by_cases hsame : LogicalType.time unit = .time unit'
  · obtain rfl := LogicalType.time.inj hsame
    rw [join_self, max_self]
  · unfold LogicalType.join
    rw [if_neg hsame]
    rfl

theorem duration_join (unit unit' : TimeUnit) :
    (LogicalType.duration unit).join (.duration unit') = .duration (max unit unit') := by
  by_cases hsame : LogicalType.duration unit = .duration unit'
  · obtain rfl := LogicalType.duration.inj hsame
    rw [join_self, max_self]
  · unfold LogicalType.join
    rw [if_neg hsame]
    rfl

theorem date_join_timestamp (unit : TimeUnit) (zone : Option String) :
    LogicalType.date.join (.timestamp unit zone) = .timestamp unit zone := rfl

theorem timestamp_join_date (unit : TimeUnit) (zone : Option String) :
    (LogicalType.timestamp unit zone).join .date = .timestamp unit zone := rfl

theorem moment_cases (h : a.component = .moment) :
    a = .date ∨ ∃ unit zone, a = .timestamp unit zone := by
  cases a <;> first | (cases h; done) | exact .inl rfl | exact .inr ⟨_, _, rfl⟩

theorem moment_assoc (ha : a.component = .moment) (hb : b.component = .moment)
    (hc : c.component = .moment) : (a.join b).join c = a.join (b.join c) := by
  obtain rfl | ⟨_, _, rfl⟩ := moment_cases ha <;> obtain rfl | ⟨_, _, rfl⟩ := moment_cases hb <;>
    obtain rfl | ⟨_, _, rfl⟩ := moment_cases hc <;>
    simp only [join_self, date_join_timestamp, timestamp_join_date, timestamp_join, max_assoc,
      joinZones_assoc]

/-! ## Structs -/

/-- A struct's field joined with what the other has of its name. -/
def joinSlot (slot : Fields.Slot) : Option Fields.Slot → Fields.Slot
  | some other => (slot.1.join other.1, slot.2 || other.2)
  | none => (slot.1, true)

/-- What two structs make of a field, as each has it. -/
def joinSlots : Option Fields.Slot → Option Fields.Slot → Option Fields.Slot
  | some slot, other? => some (joinSlot slot other?)
  | none, other? => other?.map fun only => (only.1, true)

theorem joinEach_eq : ∀ (fields : Fields) (others : OrdMap String Fields.Slot),
    fields.joinEach others
      = fields.toList.map fun entry => (entry.1, joinSlot entry.2 others[entry.1]?)
  | .nil, _ => by rw [Fields.joinEach, Fields.toList, List.map_nil]
  | .cons name type nullable rest, others => by
    rw [Fields.joinEach, Fields.toList, List.map_cons, joinEach_eq rest]
    cases others[name]? <;> rfl

/-- The fields of two structs joined, by name. -/
def joinFields (fields others : Fields) : OrdMap String Fields.Slot :=
  (fields.joinEach others.byName).foldl (fun map entry => map.insert entry.1 entry.2)
    (others.byName.map fun _ slot => (slot.1, true))

theorem getElem?_joinFields (fields others : Fields) (name : String) :
    (joinFields fields others)[name]?
      = joinSlots fields.byName[name]? others.byName[name]? := by
  have heach : lastSome
        (fun entry : String × Fields.Slot => if entry.1 = name then some entry.2 else none)
        (fields.joinEach others.byName)
      = fields.byName[name]?.map fun slot => joinSlot slot others.byName[name]? := by
    rw [joinEach_eq, lastSome_map, Fields.getElem?_byName fields, ← lastSome_optionMap]
    refine lastSome_congr fun entry _ => ?_
    by_cases hname : entry.1 = name
    · simp [hname]
    · simp [hname]
  rw [joinFields, OrdMap.getElem?_foldl_insert, heach, Std.ExtTreeMap.getElem?_map]
  cases fields.byName[name]? with
  | some slot => rfl
  | none => rfl

/-- The fields of two structs joined: as they are where they are the same. -/
def joinStructs (fields others : Fields) : Fields :=
  if fields = others then fields else .ofMap (joinFields fields others)

theorem struct_join (fields others : Fields) :
    (LogicalType.struct fields).join (.struct others) = .struct (joinStructs fields others) := by
  unfold LogicalType.join
  rw [joinStructs]
  by_cases hsame : fields = others
  · rw [if_pos (congrArg _ hsame), if_pos hsame]
  · rw [if_neg fun h => hsame (LogicalType.struct.inj h), if_neg hsame]
    rfl

theorem tidy_structs : TidyJoin joinStructs (fun fields (name : String) => fields.byName[name]?)
    (fun slots others name => joinSlots (slots name) (others name))
    (fun fields => ∃ map, fields = .ofMap map) where
  self fields := if_pos rfl
  content_join fields others := by
    funext name
    dsimp only
    by_cases hsame : fields = others
    · rw [joinStructs, if_pos hsame, ← hsame]
      cases fields.byName[name]? with
      | none => rfl
      | some slot => rw [joinSlots, joinSlot, join_self, Bool.or_self]
    · rw [joinStructs, if_neg hsame, Fields.byName_ofMap, getElem?_joinFields]
  tidy_join fields others hne := ⟨_, if_neg hne⟩
  eq_of_content := by
    rintro _ _ ⟨map, rfl⟩ ⟨map', rfl⟩ h
    refine congrArg Fields.ofMap (OrdMap.ext fun name => ?_)
    simpa only [Fields.byName_ofMap] using congrFun h name

/-! ## Lists -/

/-- The items of two lists joined: as they are where they are the same. -/
def joinItems (item other : String × Fields.Slot) : String × Fields.Slot :=
  if item = other then item else (listItem, item.2.1.join other.2.1, item.2.2 || other.2.2)

theorem list_join (item other : String × Fields.Slot) :
    (LogicalType.list item.1 item.2.1 item.2.2).join (.list other.1 other.2.1 other.2.2)
      = .list (joinItems item other).1 (joinItems item other).2.1 (joinItems item other).2.2 := by
  by_cases hsame : item = other
  · rw [joinItems, if_pos hsame, hsame, join_self]
  · rw [joinItems, if_neg hsame]
    conv_lhs => unfold LogicalType.join
    rw [if_neg]
    intro h
    obtain ⟨hname, hitem, hnullable⟩ := LogicalType.list.inj h
    exact hsame (Prod.ext hname (Prod.ext hitem hnullable))

theorem tidy_items : TidyJoin joinItems Prod.snd
    (fun slot other => (slot.1.join other.1, slot.2 || other.2))
    (fun item => item.1 = listItem) where
  self item := if_pos rfl
  content_join item other := by
    by_cases hsame : item = other
    · rw [joinItems, if_pos hsame, ← hsame, join_self, Bool.or_self]
    · rw [joinItems, if_neg hsame]
  tidy_join item other hne := by rw [joinItems, if_neg hne]
  eq_of_content item other h h' hsame := Prod.ext (h.trans h'.symm) hsame

/-! ## The laws -/

theorem joinSlots_comm {slot? other? : Option Fields.Slot}
    (h : ∀ slot ∈ slot?, ∀ other : LogicalType, slot.1.join other = other.join slot.1) :
    joinSlots slot? other? = joinSlots other? slot? := by
  cases slot? with
  | none => cases other? <;> rfl
  | some slot =>
    cases other? with
    | none => rfl
    | some other =>
      simp only [joinSlots, joinSlot]
      rw [h slot rfl, Bool.or_comm]

theorem joinSlots_assoc {slot? slot'? slot''? : Option Fields.Slot}
    (h : ∀ slot ∈ slot?, ∀ b c : LogicalType, (slot.1.join b).join c = slot.1.join (b.join c)) :
    joinSlots (joinSlots slot? slot'?) slot''? = joinSlots slot? (joinSlots slot'? slot''?) := by
  cases slot? with
  | none => cases slot'? <;> cases slot''? <;> simp [joinSlots, joinSlot]
  | some slot =>
    cases slot'? with
    | none => cases slot''? <;> simp [joinSlots, joinSlot]
    | some slot' =>
      cases slot''? with
      | none => simp [joinSlots, joinSlot]
      | some slot'' =>
        simp only [joinSlots, joinSlot]
        rw [h slot rfl, Bool.or_assoc]

/-- The types of one component, unless it holds a single one. -/
inductive Alike : LogicalType → LogicalType → Prop
  | same (a : LogicalType) : Alike a a
  | number {a b : LogicalType} (ha : a.component = .number) (hb : b.component = .number) : Alike a b
  | moment {a b : LogicalType} (ha : a.component = .moment) (hb : b.component = .moment) : Alike a b
  | time (unit unit' : TimeUnit) : Alike (.time unit) (.time unit')
  | duration (unit unit' : TimeUnit) : Alike (.duration unit) (.duration unit')
  | struct (fields others : Fields) : Alike (.struct fields) (.struct others)
  | list (item other : String × Fields.Slot) :
      Alike (.list item.1 item.2.1 item.2.2) (.list other.1 other.2.1 other.2.2)

theorem alike_of_component (h : a.component = b.component) : Alike a b := by
  cases a <;> cases b <;>
    first
      | exact .same _
      | exact .time _ _
      | exact .duration _ _
      | exact .struct _ _
      | exact .list (_, _, _) (_, _, _)
      | exact .number rfl rfl
      | exact .moment rfl rfl
      | cases h

theorem component_join (h : a.component = b.component) :
    (a.join b).component = a.component ∨ a.join b = .json := by
  cases alike_of_component h with
  | same => exact .inl (by rw [join_self])
  | number ha hb => exact ha ▸ (numeric_join (.inl ha) (.inl hb)).1
  | moment ha hb =>
    refine .inl ?_
    obtain rfl | ⟨_, _, rfl⟩ := moment_cases ha <;> obtain rfl | ⟨_, _, rfl⟩ := moment_cases hb
    · rfl
    · rfl
    · rfl
    · rw [timestamp_join]
      rfl
  | time => exact .inl (by rw [time_join]; rfl)
  | duration => exact .inl (by rw [duration_join]; rfl)
  | struct => exact .inl (by rw [struct_join]; rfl)
  | list => exact .inl (by rw [list_join]; rfl)

/-- Types join alike in either order of joining where they do within a component. -/
theorem join_assoc_of_component (h : a.component = b.component → b.component = c.component →
      (a.join b).join c = a.join (b.join c)) :
    (a.join b).join c = a.join (b.join c) := by
  by_cases ha : a = .null
  · rw [ha, null_join, null_join]
  by_cases hb : b = .null
  · rw [hb, null_join, join_null]
  by_cases hc : c = .null
  · rw [hc, join_null, join_null]
  -- a join that left its component for json stays there
  have hjson : ∀ {x y z : LogicalType}, y.component = z.component → x ≠ .null → y ≠ .null →
      y.join z ≠ .null → x.component ≠ y.component →
        x.join (y.join z) = .json ∧ (y.join z).join x = .json := by
    intro x y z hyz hx hy hjoin hxy
    rcases component_join hyz with hkept | hjson
    · exact ⟨join_of_ne hx hjoin (hkept ▸ hxy), join_of_ne hjoin hx (hkept ▸ hxy.symm)⟩
    · rw [hjson, join_json, json_join]
      exact ⟨rfl, rfl⟩
  have hnull : ∀ {x y : LogicalType}, x ≠ .null → x.component = y.component → x.join y ≠ .null := by
    intro x y hx hxy hjoin
    rcases component_join hxy with hkept | hjson
    · rw [hjoin] at hkept
      cases x <;> first | exact hx rfl | cases hkept
    · rw [hjoin] at hjson
      cases hjson
  by_cases hab : a.component = b.component
  · by_cases hbc : b.component = c.component
    · exact h hab hbc
    · rw [join_of_ne hb hc hbc, join_json]
      exact (hjson hab hc ha (hnull ha hab) fun hca => hbc (hab.symm.trans hca.symm)).2
  · rw [join_of_ne ha hb hab, json_join]
    by_cases hbc : b.component = c.component
    · exact (hjson hbc ha hb (hnull hb hbc) hab).1.symm
    · rw [join_of_ne hb hc hbc, join_json]

end LogicalType

/-! ## Induction over nesting -/

def LogicalType.parts : LogicalType → List (String × Fields.Slot)
  | .struct fields => fields.toList
  | .list name item nullable => [(name, item, nullable)]
  | _ => []

mutual

theorem LogicalType.nested_induction {P : LogicalType → Prop}
    (h : ∀ a, (∀ entry ∈ a.parts, P entry.2.1) → P a) (a : LogicalType) : P a := by
  refine h a fun entry hentry => ?_
  match a with
  | .struct fields => exact Fields.nested_induction h fields entry hentry
  | .list name item nullable =>
    obtain rfl := List.mem_singleton.mp hentry
    exact LogicalType.nested_induction h item

theorem Fields.nested_induction {P : LogicalType → Prop}
    (h : ∀ a, (∀ entry ∈ a.parts, P entry.2.1) → P a) (fields : Fields)
    (entry : String × Fields.Slot) (hentry : entry ∈ fields.toList) : P entry.2.1 := by
  match fields with
  | .nil => cases hentry
  | .cons name type nullable rest =>
    rw [Fields.toList, List.mem_cons] at hentry
    rcases hentry with rfl | hentry
    · exact LogicalType.nested_induction h type
    · exact Fields.nested_induction h rest entry hentry

end

/-! ## The laws -/

theorem LogicalType.join_comm (a b : LogicalType) : a.join b = b.join a := by
  induction a using LogicalType.nested_induction generalizing b with
  | h a ih =>
    cases a with
    | struct fields =>
      cases b with
      | struct others =>
        rw [struct_join, struct_join, tidy_structs.comm]
        funext name
        exact joinSlots_comm fun slot hslot =>
          ih (name, slot) (Fields.mem_of_getElem?_byName hslot)
      | _ => rfl
    | list name item nullable =>
      cases b with
      | list name' item' nullable' =>
        rw [list_join (name, item, nullable) (name', item', nullable'),
          list_join (name', item', nullable') (name, item, nullable), tidy_items.comm]
        rw [ih (name, item, nullable) (List.mem_singleton.mpr rfl), Bool.or_comm]
      | _ => rfl
    | _ => exact scalar_comm trivial

theorem LogicalType.join_assoc (a b c : LogicalType) : (a.join b).join c = a.join (b.join c) := by
  induction a using LogicalType.nested_induction generalizing b c with
  | h a ih =>
    refine join_assoc_of_component fun hab hbc => ?_
    have hac := hab.trans hbc
    cases a with
    | struct fields =>
      cases b with
      | struct fields' =>
        cases c with
        | struct fields'' =>
          rw [struct_join, struct_join, struct_join, struct_join, tidy_structs.assoc]
          funext name
          exact joinSlots_assoc fun slot hslot =>
            ih (name, slot) (Fields.mem_of_getElem?_byName hslot)
        | _ => cases hac
      | _ => cases hab
    | list name item nullable =>
      have hitem : ∀ b c : LogicalType, (item.join b).join c = item.join (b.join c) :=
        ih (name, item, nullable) (List.mem_singleton.mpr rfl)
      cases b with
      | list name' item' nullable' =>
        cases c with
        | list name'' item'' nullable'' =>
          rw [list_join (name, item, nullable) (name', item', nullable'),
            list_join _ (name'', item'', nullable''),
            list_join (name', item', nullable') (name'', item'', nullable''),
            list_join (name, item, nullable), tidy_items.assoc]
          rw [hitem, Bool.or_assoc]
        | _ => cases hac
      | _ => cases hab
    | time unit =>
      cases b with
      | time unit' =>
        cases c with
        | time unit'' => rw [time_join, time_join, time_join, time_join, max_assoc]
        | _ => cases hac
      | _ => cases hab
    | duration unit =>
      cases b with
      | duration unit' =>
        cases c with
        | duration unit'' =>
          rw [duration_join, duration_join, duration_join, duration_join, max_assoc]
        | _ => cases hac
      | _ => cases hab
    | date | timestamp => exact moment_assoc rfl hab.symm hac.symm
    | int8 | int16 | int32 | int64 | float32 | float64 | decimal =>
      exact number_assoc rfl hab.symm hac.symm
    | null | bool | utf8 | binary | uuid | json =>
      cases b <;> first | (cases hab; done) | (cases c <;> rfl)

/-- Over all logical types, joining is associative, commutative and idempotent, null is its
    identity and json absorbs every type. -/
theorem LogicalType.join_semilattice :
    (∀ a b c : LogicalType, (a.join b).join c = a.join (b.join c)) ∧
      (∀ a b : LogicalType, a.join b = b.join a) ∧
      (∀ a : LogicalType, a.join a = a) ∧
      (∀ a : LogicalType, LogicalType.null.join a = a ∧ a.join .null = a) ∧
      ∀ a : LogicalType, LogicalType.json.join a = .json ∧ a.join .json = .json :=
  ⟨join_assoc, join_comm, join_self, fun a => ⟨null_join a, join_null a⟩,
    fun a => ⟨json_join a, join_json a⟩⟩

end Rdlt.Types
