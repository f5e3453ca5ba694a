/-
  Rdlt.Json.Strings

  A string as the connector writes it, and as the reader reads it back: the runs
  written as they are lie between the escapes, and what is read of the text is
  the string.
-/

import Rdlt.Json.Complete

namespace Rdlt.Json

/-! ## Writing a string -/

section

variable (text : Bytes)

/-- The lower-case hex digit of a number less than 16. -/
def hexLetter (digit : Nat) : Byte := Fin.ofNat 256 (if digit < 10 then 48 + digit else 87 + digit)

/-- What a byte is escaped as: none where it stands as it is. -/
def escapedAs (byte : Byte) : Option Bytes :=
  match byte.val with
  | 34 => some [backslash, 34]
  | 92 => some [backslash, 92]
  | 10 => some [backslash, 110]
  | 13 => some [backslash, 114]
  | 9 => some [backslash, 116]
  | 8 => some [backslash, 98]
  | 12 => some [backslash, 102]
  | code =>
    if code < 0x20 then
      some [backslash, 117, 48, 48, hexLetter (code / 16), hexLetter (code % 16)]
    else none

/-- One byte of `text`: where it is escaped, the run before it is written, and then the escape. The
    first of a pair is where that run starts. -/
def writeByte (state : Nat × Bytes) (entry : Byte × Nat) : Nat × Bytes :=
  match escapedAs entry.1 with
  | none => state
  | some escaped => (entry.2 + 1, state.2 ++ (text.take entry.2).drop state.1 ++ escaped)

/-- `text` as a JSON string, quoted and escaped. -/
def writeString : Bytes :=
  let state := text.zipIdx.foldl (writeByte text) (0, [quoteByte])
  state.2 ++ text.drop state.1 ++ [quoteByte]

def writtenByte (byte : Byte) : Bytes := (escapedAs byte).getD [byte]

/-- What is written and the run not written yet are the bytes passed. -/
theorem foldl_writeByte {text before rest : Bytes} {state : Nat × Bytes}
    (htext : text = before ++ rest)
    (hle : state.1 ≤ before.length)
    (hstate : state.2 ++ before.drop state.1 = quoteByte :: before.flatMap writtenByte) :
    let final := (rest.zipIdx before.length).foldl (writeByte text) state
    final.2 ++ text.drop final.1 = quoteByte :: text.flatMap writtenByte := by
  induction rest generalizing before state with
  | nil =>
    rw [List.append_nil] at htext
    rw [htext]
    exact hstate
  | cons byte rest ih =>
    have hbefore : before ++ byte :: rest = (before ++ [byte]) ++ rest := by simp
    have hlength : (before ++ [byte]).length = before.length + 1 := by simp
    rw [hbefore] at htext
    rw [List.zipIdx_cons, List.foldl_cons, ← hlength]
    refine ih htext ?_ ?_
    · unfold writeByte
      split
      · omega
      · exact hlength.ge
    · have htake : text.take before.length = before := by
        rw [htext, List.append_assoc, List.take_left]
      rw [List.flatMap_append, List.flatMap_singleton, ← List.cons_append, ← hstate, writeByte,
        writtenByte]
      cases hescaped : escapedAs byte with
      | none =>
        simp only [Option.getD_none, List.drop_append_of_le_length hle, List.append_assoc]
      | some escaped =>
        have hpast : (before ++ [byte]).drop (before.length + 1) = [] :=
          List.drop_of_length_le hlength.le
        simp only [Option.getD_some, htake, hpast, List.append_assoc, List.append_nil]

theorem writeString_eq :
    writeString text = quoteByte :: (text.flatMap writtenByte ++ [quoteByte]) := by
  have hnone : text = [] ++ text := rfl
  exact congrArg (· ++ [quoteByte]) (foldl_writeByte hnone (Nat.zero_le 0) rfl)

/-! ## What is written denotes the string -/

theorem hexDigit_hexLetter {digit : Nat} (h : digit < 16) :
    hexDigit (hexLetter digit) = some digit := by
  have hall : ∀ digit : Fin 16, hexDigit (hexLetter digit.val) = some digit.val := by decide
  exact hall ⟨digit, h⟩

theorem utf8_control {byte : Byte} (h : byte.val < 0x20) (hvalid : byte.val.isValidChar) :
    utf8 (Char.ofNatAux byte.val hvalid) = [byte] := by
  have hall : ∀ code : Fin 0x20, utf8 (Char.ofNat code.val) = [Fin.ofNat 256 code.val] := by decide
  have hcode := hall ⟨byte.val, h⟩
  rw [Char.ofNat, dif_pos hvalid] at hcode
  rw [hcode, Fin.ofNat_val_eq_self]

theorem StringText.written (byte : Byte) {raw value : Bytes} (h : StringText raw value) :
    StringText (writtenByte byte ++ raw) (byte :: value) := by
  have hshort : ∀ {kind : Byte} {c : Char}, shortEscape kind = some c → utf8 c = [byte] →
      StringText ([backslash, kind] ++ raw) (byte :: value) := by
    intro kind c hkind hutf8
    have hescaped := StringText.escape (.short hkind) h
    rwa [hutf8] at hescaped
  unfold writtenByte escapedAs
  split
  · rename_i hval
    obtain rfl : byte = 34 := Fin.ext hval
    exact hshort rfl (by decide)
  · rename_i hval
    obtain rfl : byte = 92 := Fin.ext hval
    exact hshort rfl (by decide)
  · rename_i hval
    obtain rfl : byte = 10 := Fin.ext hval
    exact hshort rfl (by decide)
  · rename_i hval
    obtain rfl : byte = 13 := Fin.ext hval
    exact hshort rfl (by decide)
  · rename_i hval
    obtain rfl : byte = 9 := Fin.ext hval
    exact hshort rfl (by decide)
  · rename_i hval
    obtain rfl : byte = 8 := Fin.ext hval
    exact hshort rfl (by decide)
  · rename_i hval
    obtain rfl : byte = 12 := Fin.ext hval
    exact hshort rfl (by decide)
  · split
    · rename_i hlow
      have hvalid : byte.val.isValidChar := .inl (by omega)
      have hhex :
          HexText [48, 48, hexLetter (byte.val / 16), hexLetter (byte.val % 16)] byte.val := by
        have hzero : hexDigit 48 = some 0 := rfl
        have hhigh : byte.val / 16 < 16 := by omega
        have hlow' : byte.val % 16 < 16 := by omega
        have hdigits := HexText.digits hzero hzero (hexDigit_hexLetter hhigh)
          (hexDigit_hexLetter hlow')
        rwa [show ((0 * 16 + 0) * 16 + byte.val / 16) * 16 + byte.val % 16 = byte.val by omega]
          at hdigits
      have hescaped := StringText.escape (.code hhex hvalid) h
      rwa [utf8_control hlow] at hescaped
    · rename_i hquote hslash _ _ _ _ _ hhigh
      refine .byte (plainByte_eq_true.mpr ⟨?_, not_lt.mp hhigh⟩) h
      have hne : byte ≠ quoteByte ∧ byte ≠ backslash :=
        ⟨fun heq => hquote (congrArg Fin.val heq), fun heq => hslash (congrArg Fin.val heq)⟩
      simp [endsRun, hne]

theorem stringText_flatMap : StringText (text.flatMap writtenByte) text := by
  induction text with
  | nil => exact .nil
  | cons byte text ih =>
    rw [List.flatMap_cons]
    exact ih.written byte

def writtenText : Text :=
  ⟨text.flatMap writtenByte, decide (backslash ∈ text.flatMap writtenByte)⟩

theorem written_writtenText : (writtenText text).Written text := ⟨stringText_flatMap text, rfl⟩

end

/-- The strings and the keys of a text that is accepted are the grammar's. -/
theorem Accepts.written {reader : Reader} {tokens : List Token} (h : Accepts reader tokens)
    {text : Text} (hmem : Token.string text ∈ tokens ∨ Token.key text ∈ tokens) :
    ∃ value, text.Written value := by
  induction h with
  | done => simp at hmem
  | @token reader after token tokens hnext _ ih =>
    simp only [List.mem_cons] at hmem
    have hhere : (Token.string text = token ∨ Token.key text = token) →
        ∃ value, text.Written value := by
      intro htoken
      cases Reader.steps_of_next hnext with
      | value _ hvalue =>
        cases Reader.value_ok hvalue with
        | object => simp at htoken
        | array => simp at htoken
        | leaf tree htokens hwritten =>
          cases hwritten 0 with
          | string hheld =>
            cases htokens
            simp only [Token.string.injEq, reduceCtorEq, or_false] at htoken
            exact htoken ▸ ⟨_, hheld⟩
          | _ =>
            cases htokens
            simp at htoken
      | key _ hkey =>
        obtain ⟨_, name, _, _, hwritten, _, rfl, _⟩ := Reader.key_ok hkey
        simp only [reduceCtorEq, Token.key.injEq, false_or] at htoken
        exact htoken ▸ ⟨name, hwritten⟩
      | close object => cases object <;> simp [ending] at htoken
    rcases hmem with (hhead | htail) | (hhead | htail)
    · exact hhere (.inl hhead)
    · exact ih (.inl htail)
    · exact hhere (.inr hhead)
    · exact ih (.inr htail)

/-- A string written is accepted and read back; and every string and key the reader accepts is read
    as the one value its text denotes. -/
theorem strings_survive_json :
    (∀ string : Bytes, ∃ text : Text, Accepts (Reader.new (writeString string)) [.string text] ∧
      text.unescaped = some string) ∧
    (∀ {reader : Reader} {tokens : List Token} {text : Text}, Accepts reader tokens →
      (Token.string text ∈ tokens ∨ Token.key text ∈ tokens) →
        ∃ value, text.unescaped = some value ∧ ∀ other, StringText text.raw other ↔
          other = value) := by
  constructor
  · intro string
    have hwritten := written_writtenText string
    have hwhole := Option.isSome_of_eq_some hwritten.unescaped
    have htext : JsonText (writeString string) (.string (writtenText string) hwhole) := by
      refine ⟨[], _, [], fun _ h => absurd h List.not_mem_nil, fun _ h =>
        absurd h List.not_mem_nil, ?_,
        .string hwritten hwhole⟩
      rw [writeString_eq, List.append_nil]
      rfl
    exact ⟨writtenText string, htext.accepts, hwritten.unescaped⟩
  · intro reader tokens text haccepts hmem
    obtain ⟨value, hwritten⟩ := haccepts.written hmem
    refine ⟨value, hwritten.unescaped, fun other => ⟨fun hother => ?_, ?_⟩⟩
    · have hsame := (hother.unescapedFrom_eq (Nat.lt_succ_self _)).symm.trans
        (hwritten.denotes.unescapedFrom_eq (Nat.lt_succ_self _))
      exact Option.some.inj hsame
    · rintro rfl
      exact hwritten.denotes

/-- A string of an escaped pair of surrogates, read as the one character it denotes. -/
theorem strings_survive_json_pair :
    ∃ value, (⟨[92, 117, 100, 56, 51, 100, 92, 117, 100, 101, 48, 48], true⟩ : Text).unescaped
      = some value ∧ value = [0xf0, 0x9f, 0x98, 0x80] := by
  have haccepts :
      Accepts (Reader.new [34, 92, 117, 100, 56, 51, 100, 92, 117, 100, 101, 48, 48, 34])
      [.string ⟨[92, 117, 100, 56, 51, 100, 92, 117, 100, 101, 48, 48], true⟩] :=
    .token rfl (.done rfl)
  obtain ⟨value, hvalue, -⟩ := strings_survive_json.2 haccepts (.inl List.mem_cons_self)
  refine ⟨value, hvalue, ?_⟩
  have hread : (⟨[92, 117, 100, 56, 51, 100, 92, 117, 100, 101, 48, 48], true⟩ : Text).unescaped
      = some [0xf0, 0x9f, 0x98, 0x80] := by decide
  exact Option.some.inj (hvalue.symm.trans hread)

end Rdlt.Json
