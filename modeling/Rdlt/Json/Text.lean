/-
  Rdlt.Json.Text

  A JSON string's text as it is written: checked where it lies, its escapes read
  only on demand. What the check passes is read without fail.
-/

import Rdlt.Json.Canonical

namespace Rdlt.Json

variable {bytes rest taken value raw : Bytes} {c : Char} {fuel : Nat} {text : Text}

def quoteByte : Byte := 34
def backslash : Byte := 92

/-- A JSON string's text between its quotes, escapes and all, and whether it holds an escape. -/
structure Text where
  raw : Bytes
  escaped : Bool
  deriving DecidableEq, Repr

def hexDigit (byte : Byte) : Option Nat :=
  if 48 ≤ byte.val ∧ byte.val ≤ 57 then some (byte.val - 48)
  else if 97 ≤ byte.val ∧ byte.val ≤ 102 then some (byte.val - 87)
  else if 65 ≤ byte.val ∧ byte.val ≤ 70 then some (byte.val - 55)
  else none

/-- The value of the four hex digits `bytes` start with, and what follows them. -/
def hex (bytes : Bytes) : Except JsonError (Nat × Bytes) :=
  match bytes with
  | a :: b :: c :: d :: rest =>
    match hexDigit a, hexDigit b, hexDigit c, hexDigit d with
    | some a, some b, some c, some d => .ok (((a * 16 + b) * 16 + c) * 16 + d, rest)
    | _, _, _, _ => .error (.invalid "a string holds a short unicode escape")
  | _ => .error (.invalid "a string holds a short unicode escape")

def character (code : Nat) (rest : Bytes) : Except JsonError (Char × Bytes) :=
  if h : code.isValidChar then .ok (Char.ofNatAux code h, rest)
  else .error (.invalid "a string holds no character")

/-- The character of a `\u` escape whose hex digits `bytes` start with, and what follows it: a
    surrogate only as half of a pair. -/
def unicode (bytes : Bytes) : Except JsonError (Char × Bytes) :=
  match hex bytes with
  | .error error => .error error
  | .ok (high, rest) =>
    if 0xd800 ≤ high ∧ high ≤ 0xdbff then
      match rest with
      | slash :: letter :: digits =>
        if slash = backslash ∧ letter = 117 then
          match hex digits with
          | .error error => .error error
          | .ok (low, rest) =>
            if 0xdc00 ≤ low ∧ low ≤ 0xdfff then
              character (0x10000 + (high - 0xd800) * 1024 + (low - 0xdc00)) rest
            else .error (.invalid "a string holds a lone surrogate")
        else .error (.invalid "a string holds a lone surrogate")
      | _ => .error (.invalid "a string holds a lone surrogate")
    else if 0xdc00 ≤ high ∧ high ≤ 0xdfff then
      .error (.invalid "a string holds a lone surrogate")
    else character high rest

/-- The characters the letters of short escapes stand for. -/
def shortEscape (kind : Byte) : Option Char :=
  match kind.val with
  | 34 => some '"'
  | 92 => some '\\'
  | 47 => some '/'
  | 98 => some (Char.ofNat 8)
  | 102 => some (Char.ofNat 12)
  | 110 => some '\n'
  | 114 => some '\r'
  | 116 => some '\t'
  | _ => none

/-- The character the escape `bytes` start with stands for, and what follows the escape. -/
def escape (bytes : Bytes) : Except JsonError (Char × Bytes) :=
  match bytes with
  | _ :: kind :: rest =>
    match shortEscape kind with
    | some character => .ok (character, rest)
    | none =>
      if kind = 117 then unicode rest
      else .error (.invalid "a string holds an unknown escape")
  | _ => .error (.invalid "a string does not end")

/-- Whether `byte` ends a run of a string's text: its closing quote, or an escape. -/
def endsRun (byte : Byte) : Bool := byte = quoteByte ∨ byte = backslash

/-- Reads a string's text from `bytes` on, `raw` of it read: its escapes and control characters
    checked, up to its closing quote; and what follows that. `fuel` bounds the runs. -/
def Text.readFrom (fuel : Nat) (raw : Bytes) (escaped : Bool) (bytes : Bytes) :
    Except JsonError (Text × Bytes) :=
  match fuel with
  | 0 => .error (.invalid "a string does not end")
  | fuel + 1 =>
    let run := bytes.takeWhile fun byte => !endsRun byte
    match bytes.dropWhile fun byte => !endsRun byte with
    | [] => .error (.invalid "a string does not end")
    | byte :: after =>
      if run.any fun byte => byte.val < 0x20 then
        .error (.invalid "a string holds an unescaped control character")
      else if byte = quoteByte then .ok (⟨raw ++ run, escaped⟩, after)
      else
        match escape (byte :: after) with
        | .error error => .error error
        | .ok (_, rest) =>
          let taken := (byte :: after).take (after.length + 1 - rest.length)
          Text.readFrom fuel (raw ++ run ++ taken) true rest

/-- The string whose opening quote stands before `bytes`, and what follows its closing quote. -/
def Text.read (bytes : Bytes) : Except JsonError (Text × Bytes) :=
  Text.readFrom (bytes.length + 1) [] false bytes

def utf8 (character : Char) : Bytes := (String.utf8EncodeChar character).map UInt8.toFin

/-- The text `raw` writes, its escapes read; none where one is not whole. -/
def unescapedFrom (fuel : Nat) (raw : Bytes) : Option Bytes :=
  match fuel with
  | 0 => none
  | fuel + 1 =>
    let run := raw.takeWhile (· ≠ backslash)
    match raw.dropWhile (· ≠ backslash) with
    | [] => some run
    | byte :: after =>
      match escape (byte :: after) with
      | .error _ => none
      | .ok (character, rest) =>
        (unescapedFrom fuel rest).map fun text => run ++ utf8 character ++ text

/-- The string, its escapes read; none, where the code stops, if one is not whole. -/
def Text.unescaped (text : Text) : Option Bytes :=
  if text.escaped then unescapedFrom (text.raw.length + 1) text.raw else some text.raw

/-! ## The grammar of a string -/

/-- The value of four hex digits. -/
inductive HexText : Bytes → Nat → Prop
  | digits {a b c d : Byte} {w x y z : Nat} (ha : hexDigit a = some w) (hb : hexDigit b = some x)
      (hc : hexDigit c = some y) (hd : hexDigit d = some z) :
      HexText [a, b, c, d] (((w * 16 + x) * 16 + y) * 16 + z)

/-- An escape as RFC 8259 writes one, and the character it stands for: the letter of a short one,
    the code of a character, or the two halves of a surrogate pair. -/
inductive EscapeText : Bytes → Char → Prop
  | short {kind : Byte} {c : Char} (h : shortEscape kind = some c) : EscapeText [backslash, kind] c
  | code {digits : Bytes} {code : Nat} (h : HexText digits code) (hvalid : code.isValidChar) :
      EscapeText (backslash :: 117 :: digits) (Char.ofNatAux code hvalid)
  | pair {first second : Bytes} {high low : Nat} (hfirst : HexText first high)
      (hhigh : 0xd800 ≤ high ∧ high ≤ 0xdbff) (hsecond : HexText second low)
      (hlow : 0xdc00 ≤ low ∧ low ≤ 0xdfff)
      (hvalid : (0x10000 + (high - 0xd800) * 1024 + (low - 0xdc00)).isValidChar) :
      EscapeText (backslash :: 117 :: first ++ backslash :: 117 :: second)
        (Char.ofNatAux (0x10000 + (high - 0xd800) * 1024 + (low - 0xdc00)) hvalid)

/-- A byte a string holds as it is: no quote, no backslash and no control character. -/
def plainByte (byte : Byte) : Bool := !endsRun byte && decide (0x20 ≤ byte.val)

/-- What a string's text between its quotes denotes: its bytes, each escape as its character. -/
inductive StringText : Bytes → Bytes → Prop
  | nil : StringText [] []
  | byte {byte : Byte} {raw value : Bytes} (h : plainByte byte = true)
      (rest : StringText raw value) :
      StringText (byte :: raw) (byte :: value)
  | escape {taken raw value : Bytes} {c : Char} (h : EscapeText taken c)
      (rest : StringText raw value) : StringText (taken ++ raw) (utf8 c ++ value)

theorem hex_iff {value : Nat} :
    hex bytes = .ok (value, rest) ↔ ∃ digits, HexText digits value ∧ bytes = digits ++ rest := by
  constructor
  · intro h
    unfold hex at h
    split at h
    · split at h
      · rename_i ha hb hc hd
        cases h
        exact ⟨_, .digits ha hb hc hd, rfl⟩
      · cases h
    · cases h
  · rintro ⟨_, ⟨ha, hb, hc, hd⟩, rfl⟩
    simp [hex, ha, hb, hc, hd]

theorem character_iff {code : Nat} : character code bytes = .ok (c, rest)
      ↔ ∃ h : code.isValidChar, c = Char.ofNatAux code h ∧ bytes = rest := by
  unfold character
  split
  · rename_i hvalid
    simp only [Except.ok.injEq, Prod.mk.injEq]
    exact ⟨fun ⟨hc, hrest⟩ => ⟨hvalid, hc.symm, hrest⟩, fun ⟨_, hc, hrest⟩ => ⟨hc.symm, hrest⟩⟩
  · rename_i hvalid
    simp only [reduceCtorEq, false_iff]
    exact fun ⟨h, _⟩ => hvalid h

theorem not_surrogate {code : Nat} (h : code.isValidChar) :
    ¬ (0xd800 ≤ code ∧ code ≤ 0xdbff) ∧ ¬ (0xdc00 ≤ code ∧ code ≤ 0xdfff) := by
  unfold Nat.isValidChar at h
  omega

theorem escapeText_of_unicode (h : unicode bytes = .ok (c, rest)) :
    ∃ taken, EscapeText (backslash :: 117 :: taken) c ∧ bytes = taken ++ rest := by
  unfold unicode at h
  cases hhigh : hex bytes with
  | error error => simp [hhigh] at h
  | ok found =>
    obtain ⟨high, tail⟩ := found
    obtain ⟨first, hfirst, rfl⟩ := hex_iff.mp hhigh
    simp only [hhigh] at h
    split at h
    · next hrange =>
        split at h
        · next slash letter digits =>
            split at h
            · next hpair =>
                obtain ⟨rfl, rfl⟩ := hpair
                cases hlow : hex digits with
                | error error => simp [hlow] at h
                | ok found =>
                  obtain ⟨low, final⟩ := found
                  obtain ⟨second, hsecond, rfl⟩ := hex_iff.mp hlow
                  simp only [hlow] at h
                  split at h
                  · rename_i hlowrange
                    obtain ⟨hvalid, rfl, rfl⟩ := character_iff.mp h
                    exact ⟨first ++ backslash :: 117 :: second,
                      .pair hfirst hrange hsecond hlowrange hvalid, by simp⟩
                  · cases h
            · cases h
        · cases h
    · split at h
      · cases h
      · obtain ⟨hvalid, rfl, rfl⟩ := character_iff.mp h
        exact ⟨first, .code hfirst hvalid, rfl⟩

/-- An escape is read where the grammar has one, and as the character it stands for. -/
theorem escape_iff : escape (backslash :: bytes) = .ok (c, rest)
      ↔ ∃ taken, EscapeText taken c ∧ backslash :: bytes = taken ++ rest := by
  constructor
  · intro h
    unfold escape at h
    split at h
    · next hcons =>
        cases hcons
        split at h
        · rename_i hfound
          cases h
          exact ⟨_, .short hfound, rfl⟩
        · split at h
          · rename_i hkind
            obtain ⟨taken, htaken, rfl⟩ := escapeText_of_unicode h
            exact ⟨_, htaken, by rw [hkind]; rfl⟩
          · cases h
    · cases h
  · have hunicode : ∀ more : Bytes, escape (backslash :: 117 :: more) = unicode more := fun _ => rfl
    rintro ⟨taken, htaken, heq⟩
    rw [heq]
    cases htaken with
    | short hshort => simp [escape, hshort]
    | code hhex hvalid =>
      obtain ⟨hhigh, hlow⟩ := not_surrogate hvalid
      rw [List.cons_append, List.cons_append, hunicode, unicode, hex_iff.mpr ⟨_, hhex, rfl⟩]
      simp only [if_neg hhigh, if_neg hlow]
      exact character_iff.mpr ⟨hvalid, rfl, rfl⟩
    | pair hfirst hhigh hsecond hlow hvalid =>
      simp only [List.append_assoc, List.cons_append]
      rw [hunicode, unicode, hex_iff.mpr ⟨_, hfirst, rfl⟩]
      simp only [if_pos hhigh, and_self, if_true, hex_iff.mpr ⟨_, hsecond, rfl⟩, if_pos hlow]
      exact character_iff.mpr ⟨hvalid, rfl, rfl⟩

theorem EscapeText.exists_cons (h : EscapeText taken c) : ∃ more, taken = backslash :: more := by
  cases h <;> exact ⟨_, rfl⟩

theorem EscapeText.read (h : EscapeText taken c) (rest : Bytes) :
    escape (taken ++ rest) = .ok (c, rest) := by
  obtain ⟨more, rfl⟩ := h.exists_cons
  exact escape_iff.mpr ⟨_, h, rfl⟩

/-! ## A string is read exactly where the grammar has one -/

theorem plainByte_eq_true {byte : Byte} :
    plainByte byte = true ↔ endsRun byte = false ∧ 0x20 ≤ byte.val := by
  simp [plainByte]

section Reading

variable {fuel : Nat} {raw : Bytes} {escaped : Bool}

theorem Text.readFrom_byte {byte : Byte} (h : plainByte byte = true) (bytes : Bytes) :
    Text.readFrom (fuel + 1) raw escaped (byte :: bytes)
      = Text.readFrom (fuel + 1) (raw ++ [byte]) escaped bytes := by
  obtain ⟨hends, hhigh⟩ := plainByte_eq_true.mp h
  have hcontrol : decide (byte.val < 0x20) = false := decide_eq_false (by omega)
  rw [Text.readFrom, Text.readFrom]
  simp only [List.takeWhile_cons, List.dropWhile_cons, hends, Bool.not_false, if_true,
    List.any_cons,
    hcontrol, Bool.false_or, List.append_assoc, List.cons_append, List.nil_append]

theorem Text.readFrom_quote (bytes : Bytes) :
    Text.readFrom (fuel + 1) raw escaped (quoteByte :: bytes) = .ok (⟨raw, escaped⟩, bytes) := by
  have hends : endsRun quoteByte = true := by decide
  simp [Text.readFrom, hends]

theorem Text.readFrom_backslash (bytes : Bytes) :
    Text.readFrom (fuel + 1) raw escaped (backslash :: bytes)
      = match escape (backslash :: bytes) with
        | .error error => .error error
        | .ok (_, rest) => Text.readFrom fuel
            (raw ++ (backslash :: bytes).take (bytes.length + 1 - rest.length)) true rest := by
  have hends : endsRun backslash = true := by decide
  have hquote : ¬ backslash = quoteByte := by decide
  rw [Text.readFrom]
  simp only [List.takeWhile_cons, List.dropWhile_cons, hends, Bool.not_true, Bool.false_eq_true,
    if_false, List.any_nil, if_neg hquote, List.append_nil]

theorem Text.readFrom_escape {taken : Bytes} {c : Char} (h : EscapeText taken c) (bytes : Bytes) :
    Text.readFrom (fuel + 1) raw escaped (taken ++ bytes)
      = Text.readFrom fuel (raw ++ taken) true bytes := by
  have hread := h.read bytes
  obtain ⟨more, rfl⟩ := h.exists_cons
  rw [List.cons_append] at hread ⊢
  rw [Text.readFrom_backslash, hread]
  have htake : (backslash :: (more ++ bytes)).take ((more ++ bytes).length + 1 - bytes.length)
      = backslash :: more := by
    rw [← List.cons_append,
      List.take_left' (by simp only [List.length_append, List.length_cons]; omega)]
  simp only [htake]

theorem Text.readFrom_control {byte : Byte} (hends : endsRun byte = false) (hlow : byte.val < 0x20)
    (bytes : Bytes) (found : Text × Bytes) :
    Text.readFrom (fuel + 1) raw escaped (byte :: bytes) ≠ .ok found := by
  rw [Text.readFrom]
  simp only [List.takeWhile_cons, List.dropWhile_cons, hends, Bool.not_false, if_true]
  cases bytes.dropWhile fun byte => !endsRun byte with
  | nil => simp
  | cons stop after => simp [hlow]

end Reading

/-- The text the grammar has is read up to its closing quote. -/
theorem StringText.readFrom {piece : Bytes} (h : StringText piece value) (rest : Bytes) :
    ∀ {fuel : Nat} {raw : Bytes} {escaped : Bool}, piece.length < fuel →
      Text.readFrom fuel raw escaped (piece ++ quoteByte :: rest)
        = .ok (⟨raw ++ piece, escaped || decide (backslash ∈ piece)⟩, rest) := by
  induction h with
  | nil =>
    intro fuel raw escaped hfuel
    obtain ⟨fuel, rfl⟩ := Nat.exists_eq_add_one.mpr hfuel.pos
    rw [List.nil_append, Text.readFrom_quote]
    simp
  | @byte byte piece value hplain _ ih =>
    intro fuel raw escaped hfuel
    rw [List.length_cons] at hfuel
    obtain ⟨fuel, rfl⟩ := Nat.exists_eq_add_one.mpr hfuel.pos
    have hne : backslash ≠ byte := by
      rintro rfl
      exact absurd hplain (by decide)
    rw [List.cons_append, Text.readFrom_byte hplain, ih (by omega)]
    simp [hne]
  | @escape taken piece value c hescape _ ih =>
    intro fuel raw escaped hfuel
    obtain ⟨more, hmore⟩ := hescape.exists_cons
    rw [List.length_append, hmore, List.length_cons] at hfuel
    obtain ⟨fuel, rfl⟩ := Nat.exists_eq_add_one.mpr hfuel.pos
    rw [List.append_assoc, Text.readFrom_escape hescape, ih (by omega), hmore]
    simp

/-- Text that is read is the grammar's, up to a closing quote. -/
theorem Text.stringText_of_readFrom {escaped : Bool}
    (h : Text.readFrom fuel raw escaped bytes = .ok (text, rest)) :
    ∃ piece value, StringText piece value ∧ bytes = piece ++ quoteByte :: rest := by
  induction fuel generalizing raw escaped bytes with
  | zero => cases h
  | succ fuel ihFuel =>
    -- A plain byte leaves the fuel, an escape takes one of it.
    induction bytes generalizing raw with
    | nil => simp [Text.readFrom] at h
    | cons byte bytes ih =>
      by_cases hplain : plainByte byte = true
      · rw [Text.readFrom_byte hplain] at h
        obtain ⟨piece, value, hpiece, rfl⟩ := ih h
        exact ⟨_, _, .byte hplain hpiece, rfl⟩
      · by_cases hquote : byte = quoteByte
        · rw [hquote, Text.readFrom_quote] at h
          cases h
          exact ⟨_, _, .nil, by rw [hquote]; rfl⟩
        · by_cases hslash : byte = backslash
          · subst hslash
            rw [Text.readFrom_backslash] at h
            cases hescape : escape (backslash :: bytes) with
            | error error => simp [hescape] at h
            | ok found =>
              obtain ⟨taken, htaken, heq⟩ := escape_iff.mp hescape
              simp only [hescape] at h
              obtain ⟨piece, value, hpiece, hrest⟩ := ihFuel h
              exact ⟨_, _, .escape htaken hpiece, by rw [heq, hrest, List.append_assoc]⟩
          · have hends : endsRun byte = false := by simp [endsRun, hquote, hslash]
            refine absurd h (Text.readFrom_control hends ?_ bytes _)
            rw [plainByte_eq_true, not_and] at hplain
            exact Nat.lt_of_not_le (hplain hends)

/-- A string as it is written: its text is the grammar's, marked where it has an escape. -/
structure Text.Written (text : Text) (value : Bytes) : Prop where
  denotes : StringText text.raw value
  marked : text.escaped = decide (backslash ∈ text.raw)

theorem Text.read_iff : Text.read bytes = .ok (text, rest)
      ↔ ∃ value, text.Written value ∧ bytes = text.raw ++ quoteByte :: rest := by
  constructor
  · intro h
    obtain ⟨piece, value, hpiece, rfl⟩ := Text.stringText_of_readFrom h
    have hread : Text.read _ = _ :=
      hpiece.readFrom rest (by simp only [List.length_append, List.length_cons]; omega)
    rw [hread] at h
    cases h
    exact ⟨value, ⟨by simpa using hpiece, by simp⟩, by simp⟩
  · rintro ⟨value, ⟨hdenotes, hmarked⟩, rfl⟩
    refine (hdenotes.readFrom rest
      (by simp only [List.length_append, List.length_cons]; omega)).trans ?_
    rw [List.nil_append, Bool.false_or, ← hmarked]

/-! ## What is read is what the grammar says -/

theorem unescapedFrom_byte {byte : Byte} (h : byte ≠ backslash) (raw : Bytes) :
    unescapedFrom (fuel + 1) (byte :: raw) = (unescapedFrom (fuel + 1) raw).map (byte :: ·) := by
  rw [unescapedFrom, unescapedFrom]
  simp only [List.takeWhile_cons, List.dropWhile_cons, h, ne_eq, not_false_eq_true, decide_true,
    if_true]
  cases raw.dropWhile fun byte => decide (¬ byte = backslash) with
  | nil => rfl
  | cons slash after =>
    cases hescape : escape (slash :: after) with
    | error error => simp [hescape]
    | ok found => simp [hescape, Function.comp_def]

theorem unescapedFrom_escape (h : EscapeText taken c) (raw : Bytes) :
    unescapedFrom (fuel + 1) (taken ++ raw) = (unescapedFrom fuel raw).map (utf8 c ++ ·) := by
  have hread := h.read raw
  obtain ⟨more, rfl⟩ := h.exists_cons
  rw [List.cons_append] at hread ⊢
  rw [unescapedFrom]
  simp only [List.takeWhile_cons, List.dropWhile_cons, ne_eq, not_true_eq_false, decide_false,
    Bool.false_eq_true, if_false, hread, List.nil_append]

theorem StringText.unescapedFrom_eq (h : StringText raw value) :
    ∀ {fuel : Nat}, raw.length < fuel → unescapedFrom fuel raw = some value := by
  induction h with
  | nil =>
    intro fuel hfuel
    obtain ⟨fuel, rfl⟩ := Nat.exists_eq_add_one.mpr hfuel.pos
    rfl
  | @byte byte raw value hplain _ ih =>
    intro fuel hfuel
    rw [List.length_cons] at hfuel
    obtain ⟨fuel, rfl⟩ := Nat.exists_eq_add_one.mpr hfuel.pos
    have hne : byte ≠ backslash := by
      rintro rfl
      exact absurd hplain (by decide)
    rw [unescapedFrom_byte hne, ih (by omega)]
    rfl
  | @escape taken raw value c hescape _ ih =>
    intro fuel hfuel
    obtain ⟨more, hmore⟩ := hescape.exists_cons
    rw [List.length_append, hmore, List.length_cons] at hfuel
    obtain ⟨fuel, rfl⟩ := Nat.exists_eq_add_one.mpr hfuel.pos
    rw [unescapedFrom_escape hescape, ih (by omega)]
    rfl

theorem StringText.eq_self (h : StringText raw value) (hplain : backslash ∉ raw) : value = raw := by
  induction h with
  | nil => rfl
  | byte _ _ ih => rw [ih fun hmem => hplain (List.mem_cons_of_mem _ hmem)]
  | escape hescape _ _ =>
    obtain ⟨more, rfl⟩ := hescape.exists_cons
    exact absurd (by simp) hplain

theorem Text.Written.unescaped (h : text.Written value) : text.unescaped = some value := by
  unfold Text.unescaped
  split
  · exact h.denotes.unescapedFrom_eq (Nat.lt_succ_self _)
  · rename_i hescaped
    rw [h.marked, decide_eq_true_eq] at hescaped
    rw [h.denotes.eq_self hescaped]

end Rdlt.Json
