/-
  Rdlt.Json.Reader

  JSON text read a token at a time: no recursion however deep it nests, nesting
  bounded, and numbers as they are written. What the reader accepts is one JSON
  value: its tokens are those of a tree.
-/

import Rdlt.Json.Text

namespace Rdlt.Json

variable {bytes whole rest : Bytes}

open Lib (AllDigits isDigit isZero joinPoint pointByte zeroByte)

/-- Levels: the deepest a value may nest. -/
def nestingDepth : Nat := 64

inductive Token
  | null
  | bool (value : Bool)
  /-- A number, as it is written. -/
  | number (written : Bytes)
  /-- A string as it is written, its escapes checked. -/
  | string (text : Text)
  /-- An object member's key, as a string is; its value's tokens follow. -/
  | key (text : Text)
  | beginObject
  | endObject
  | beginArray
  | endArray
  deriving DecidableEq, Repr

inductive Next
  /-- A value: the text's, an item or a member's. -/
  | value
  /-- An array's first item, or its end. -/
  | firstItem
  /-- An object's first key, or its end. -/
  | firstKey
  /-- A key, after a comma. -/
  | key
  /-- A comma, or the end of the container open; or the end of the text where none is. -/
  | separator
  deriving DecidableEq, Repr

/-- The text still to read, the containers open, the innermost first (whether each is an object),
    and what is read next. -/
structure Reader where
  rest : Bytes
  opened : List Bool
  due : Next
  deriving DecidableEq, Repr

/-! ## Numbers -/

/-- The digits before a number's point: a zero, or a run that starts with none. -/
def wholePart (bytes : Bytes) : Except JsonError (Bytes × Bytes) :=
  match bytes with
  | byte :: rest =>
    if byte = zeroByte then .ok ([zeroByte], rest)
    else if isDigit byte then .ok (bytes.takeWhile isDigit, bytes.dropWhile isDigit)
    else .error (.invalid "a number has no digits")
  | [] => .error (.invalid "a number has no digits")

/-- The point and the digits after it, where there is one. -/
def fractionPart (bytes : Bytes) : Except JsonError (Bytes × Bytes) :=
  match bytes with
  | byte :: rest =>
    if byte = pointByte then
      if rest.takeWhile isDigit = [] then
        .error (.invalid "a number's point has no digits after it")
      else .ok (byte :: rest.takeWhile isDigit, rest.dropWhile isDigit)
    else .ok ([], bytes)
  | [] => .ok ([], bytes)

def exponentSign (bytes : Bytes) : Option Byte × Bytes :=
  match bytes with
  | byte :: rest => if byte = plusByte ∨ byte = minusByte then (some byte, rest) else (none, bytes)
  | [] => (none, bytes)

/-- A number's exponent, where there is one. -/
def exponentPart (bytes : Bytes) : Except JsonError (Bytes × Bytes) :=
  match bytes with
  | byte :: rest =>
    if byte = smallE ∨ byte = bigE then
      let (sign, rest) := exponentSign rest
      let digits := rest.takeWhile isDigit
      if digits = [] then .error (.invalid "a number's exponent has no digits")
      else if exponentDigits < (digits.dropWhile isZero).length then .error .exponent
      else .ok (byte :: (sign.toList ++ digits), rest.dropWhile isDigit)
    else .ok ([], bytes)
  | [] => .ok ([], bytes)

/-- The number `bytes` start with, as it is written, and what follows it. -/
def number (bytes : Bytes) : Except JsonError (Bytes × Bytes) :=
  let (negative, unsigned) := splitSign bytes
  match wholePart unsigned with
  | .error error => .error error
  | .ok (whole, rest) =>
    match fractionPart rest with
    | .error error => .error error
    | .ok (fraction, rest) =>
      match exponentPart rest with
      | .error error => .error error
      | .ok (exponent, rest) =>
        .ok ((if negative then [minusByte] else []) ++ (whole ++ fraction ++ exponent), rest)

/-- Bytes: a text of an array's is shorter than this. -/
def textBytes : Nat := 2 ^ 31

/-- A number as RFC 8259 writes one, no zero before the other digits of its whole part, its exponent
    of no more digits than the limit beside the zeros it starts with. -/
structure ReadNumber extends NumberText where
  leading : whole = [zeroByte] ∨ whole.head? ≠ some zeroByte
  limit : ∀ held ∈ exponent, (held.digits.dropWhile isZero).length ≤ exponentDigits

/-! ## Tokens -/

namespace Reader

def new (text : Bytes) : Reader := ⟨text, [], .value⟩

def skipWhitespace (bytes : Bytes) : Bytes :=
  bytes.dropWhile fun byte => byte = 32 ∨ byte = 9 ∨ byte = 10 ∨ byte = 13

def literal (reader : Reader) (word : Bytes) (token : Token) : Except JsonError (Token × Reader) :=
  if word.isPrefixOf reader.rest then
    .ok (token, { reader with rest := reader.rest.drop word.length, due := .separator })
  else .error (.invalid "a literal is misspelt")

def value (reader : Reader) : Except JsonError (Token × Reader) :=
  match reader.rest with
  | [] => .error (.invalid "the text ends where a value is due")
  | byte :: after =>
    if byte = 123 ∨ byte = 91 then
      if nestingDepth ≤ reader.opened.length then .error .tooDeep
      else if byte = 123 then .ok (.beginObject, ⟨after, true :: reader.opened, .firstKey⟩)
      else .ok (.beginArray, ⟨after, false :: reader.opened, .firstItem⟩)
    else if byte = quoteByte then
      match Text.read after with
      | .error error => .error error
      | .ok (text, rest) => .ok (.string text, ⟨rest, reader.opened, .separator⟩)
    else if byte = 116 then reader.literal [116, 114, 117, 101] (.bool true)
    else if byte = 102 then reader.literal [102, 97, 108, 115, 101] (.bool false)
    else if byte = 110 then reader.literal [110, 117, 108, 108] .null
    else if byte = minusByte ∨ isDigit byte then
      match number reader.rest with
      | .error error => .error error
      | .ok (written, rest) => .ok (.number written, ⟨rest, reader.opened, .separator⟩)
    else .error (.invalid "a value is due")

/-- Reads a key where one is due, past any whitespace, and the colon after it. -/
def key (reader : Reader) : Except JsonError (Token × Reader) :=
  match reader.rest with
  | [] => .error (.invalid "a key is due")
  | byte :: after =>
    if byte = quoteByte then
      match Text.read after with
      | .error error => .error error
      | .ok (text, rest) =>
        match skipWhitespace rest with
        | colon :: after =>
          if colon = 58 then .ok (.key text, ⟨after, reader.opened, .value⟩)
          else .error (.invalid "a key is not followed by a colon")
        | [] => .error (.invalid "a key is not followed by a colon")
    else .error (.invalid "a key is due")

/-- Closes the innermost container, with its closing byte, as `token`. -/
def close (reader : Reader) (token : Token) : Token × Reader :=
  (token, ⟨reader.rest.tail, reader.opened.tail, .separator⟩)

def pastComma (reader : Reader) : Reader :=
  { reader with rest := skipWhitespace reader.rest.tail }

/-- What follows a value in the container open: a comma and the next value or key, or its end. -/
def separated (reader : Reader) (object : Bool) : Except JsonError (Token × Reader) :=
  match reader.rest.head?, object with
  | some 44, true => reader.pastComma.key
  | some 44, false => reader.pastComma.value
  | some 125, true => .ok (reader.close .endObject)
  | some 93, false => .ok (reader.close .endArray)
  | _, _ => .error (.invalid "a container is not separated or closed")

/-- The next token; none once the value has ended and nothing but whitespace follows. -/
def next (reader : Reader) : Except JsonError (Option (Token × Reader)) :=
  let reader := { reader with rest := skipWhitespace reader.rest }
  match reader.due with
  | .value => reader.value.map some
  | .separator =>
    match reader.opened with
    | [] =>
      if reader.rest = [] then .ok none else .error (.invalid "more follows the value")
    | object :: _ => (reader.separated object).map some
  | .firstItem =>
    if reader.rest.head? = some 93 then .ok (some (reader.close .endArray))
    else reader.value.map some
  | .firstKey =>
    if reader.rest.head? = some 125 then .ok (some (reader.close .endObject))
    else reader.key.map some
  | .key => reader.key.map some

end Reader

/-- The reader reads `tokens`, and then the text has ended. -/
inductive Accepts : Reader → List Token → Prop
  | done {reader : Reader} (h : reader.next = .ok none) : Accepts reader []
  | token {reader after : Reader} {token : Token} {tokens : List Token}
      (h : reader.next = .ok (some (token, after))) (rest : Accepts after tokens) :
      Accepts reader (token :: tokens)

/-! ## What the parts of a number are -/

theorem allDigits_takeWhile (bytes : Bytes) : AllDigits (bytes.takeWhile isDigit) := fun _ hbyte =>
  List.mem_takeWhile_imp hbyte

theorem wholePart_ok (h : wholePart bytes = .ok (whole, rest)) :
    bytes = whole ++ rest ∧ AllDigits whole ∧ whole ≠ [] ∧
      (whole = [zeroByte] ∨ whole.head? ≠ some zeroByte) := by
  unfold wholePart at h
  split at h
  · next byte tail =>
      split at h
      · rename_i hzero
        cases h
        refine ⟨by rw [hzero]; rfl, ?_, by simp, .inl rfl⟩
        intro b hb
        rw [List.mem_singleton.mp hb]
        rfl
      · next hzero =>
          split at h
          · rename_i hdigit
            cases h
            refine ⟨(List.takeWhile_append_dropWhile).symm, allDigits_takeWhile _, ?_⟩
            rw [List.takeWhile_cons_of_pos hdigit]
            exact ⟨by simp, .inr (by simpa using hzero)⟩
          · cases h
  · cases h

theorem fractionPart_ok {piece : Bytes} (h : fractionPart bytes = .ok (piece, rest)) :
    ∃ fraction, AllDigits fraction ∧ bytes = piece ++ rest ∧
      ∀ whole, whole ++ piece = joinPoint whole fraction := by
  have hnone : ∀ whole : Bytes, whole ++ [] = joinPoint whole [] := fun whole => by
    rw [List.append_nil, joinPoint, if_pos rfl]
  unfold fractionPart at h
  split at h
  · next byte tail =>
      split at h
      · next hpoint =>
          split at h
          · cases h
          · rename_i hsome
            cases h
            refine ⟨tail.takeWhile isDigit, allDigits_takeWhile _, ?_, fun whole => ?_⟩
            · rw [List.cons_append, List.takeWhile_append_dropWhile]
            · rw [joinPoint, if_neg hsome, hpoint]
      · cases h
        exact ⟨[], fun b hb => absurd hb List.not_mem_nil, rfl, hnone⟩
  · cases h
    exact ⟨[], fun b hb => absurd hb List.not_mem_nil, rfl, hnone⟩

theorem exponentSign_ok (bytes : Bytes) :
    bytes = (exponentSign bytes).1.toList ++ (exponentSign bytes).2 ∧
      ∀ byte ∈ (exponentSign bytes).1, byte = minusByte ∨ byte = plusByte := by
  unfold exponentSign
  split
  · next byte rest =>
      split
      · rename_i hsign
        refine ⟨rfl, ?_⟩
        rintro _ ⟨⟩
        exact hsign.symm
      · exact ⟨rfl, fun b hb => by cases hb⟩
  · exact ⟨rfl, fun b hb => by cases hb⟩

theorem exponentPart_ok {piece : Bytes} (h : exponentPart bytes = .ok (piece, rest)) :
    ∃ exponent : Option ExponentText,
      (∀ held ∈ exponent, (held.digits.dropWhile isZero).length ≤ exponentDigits) ∧
        bytes = piece ++ rest ∧ piece = (exponent.map ExponentText.bytes).getD [] := by
  unfold exponentPart at h
  split at h
  · next byte tail =>
      split at h
      · next hmark =>
          obtain ⟨hsplit, hsign⟩ := exponentSign_ok tail
          dsimp only at h
          split at h
          · cases h
          · next hsome =>
              split at h
              · cases h
              · rename_i hlimit
                cases h
                refine ⟨some ⟨byte, (exponentSign tail).1, _, hmark, hsign,
                  allDigits_takeWhile _, hsome⟩, ?_, ?_, rfl⟩
                · rintro _ ⟨⟩
                  exact not_lt.mp hlimit
                · rw [List.cons_append, List.append_assoc,
                    List.takeWhile_append_dropWhile, ← hsplit]
      · cases h
        exact ⟨none, by simp, rfl, rfl⟩
  · cases h
    exact ⟨none, by simp, rfl, rfl⟩

theorem splitSign_append (bytes : Bytes) :
    bytes = (if (splitSign bytes).1 then [minusByte] else []) ++ (splitSign bytes).2 := by
  unfold splitSign
  split
  · split
    · next h => rw [h]; rfl
    · rfl
  · rfl

/-- A number read is one as it is written, from the text's start. -/
theorem number_ok {written : Bytes} (h : number bytes = .ok (written, rest)) :
    ∃ read : ReadNumber, written = read.bytes ∧ bytes = written ++ rest := by
  unfold number at h
  cases hwhole : wholePart (splitSign bytes).2 with
  | error error => simp [hwhole] at h
  | ok found =>
    obtain ⟨whole, tail⟩ := found
    simp only [hwhole] at h
    cases hfraction : fractionPart tail with
    | error error => simp [hfraction] at h
    | ok found =>
      obtain ⟨point, tail'⟩ := found
      simp only [hfraction] at h
      cases hexponent : exponentPart tail' with
      | error error => simp [hexponent] at h
      | ok found =>
        obtain ⟨marked, tail''⟩ := found
        simp only [hexponent] at h
        cases h
        obtain ⟨hsplit, hdigits, hne, hleading⟩ := wholePart_ok hwhole
        obtain ⟨fraction, hdigits', hsplit', hjoin⟩ := fractionPart_ok hfraction
        obtain ⟨exponent, hlimit, hsplit'', hmarked⟩ := exponentPart_ok hexponent
        have hall : AllDigits (whole ++ fraction) := fun b hb =>
          (List.mem_append.mp hb).elim (hdigits b) (hdigits' b)
        refine ⟨⟨⟨(splitSign bytes).1, whole, fraction, exponent, hall, hne⟩, hleading, hlimit⟩,
          ?_, ?_⟩
        · rw [NumberText.bytes, NumberText.sign, hjoin, hmarked]
        · conv_lhs => rw [splitSign_append bytes, hsplit, hsplit', hsplit'']
          simp only [List.append_assoc]

/-! ## A number is read wherever it is written -/

def NoDigit (rest : Bytes) : Prop := ∀ byte ∈ rest.head?, isDigit byte = false

/-- Nothing follows that a number could go on with. -/
def Stops (rest : Bytes) : Prop :=
  ∀ byte ∈ rest.head?, isDigit byte = false ∧ byte ≠ pointByte ∧ ¬ (byte = smallE ∨ byte = bigE)

theorem Stops.noDigit (h : Stops rest) : NoDigit rest := fun byte hbyte =>
  (h byte hbyte).1

theorem span_digits {digits : Bytes} (h : AllDigits digits) (hrest : NoDigit rest) :
    (digits ++ rest).takeWhile isDigit = digits ∧ (digits ++ rest).dropWhile isDigit = rest := by
  rw [List.takeWhile_append_of_pos h, List.dropWhile_append_of_pos h]
  cases rest with
  | nil => simp
  | cons byte rest =>
    have hbyte := hrest byte rfl
    rw [List.takeWhile_cons_of_neg (by simp [hbyte]), List.dropWhile_cons_of_neg (by simp [hbyte]),
      List.append_nil]
    exact ⟨rfl, rfl⟩

theorem wholePart_append (h : AllDigits whole) (hne : whole ≠ [])
    (hleading : whole = [zeroByte] ∨ whole.head? ≠ some zeroByte) (hrest : NoDigit rest) :
    wholePart (whole ++ rest) = .ok (whole, rest) := by
  rcases hleading with rfl | hleading
  · rfl
  · obtain ⟨byte, tail, rfl⟩ := List.exists_cons_of_ne_nil hne
    have hspan := span_digits h hrest
    rw [List.cons_append] at hspan ⊢
    have hzero : byte ≠ zeroByte := by simpa using hleading
    rw [wholePart, if_neg hzero, if_pos (h byte List.mem_cons_self), hspan.1, hspan.2]

/-- The point and the digits after it, as they are written. -/
def pointed (fraction : Bytes) : Bytes := if fraction = [] then [] else pointByte :: fraction

theorem joinPoint_eq (whole fraction : Bytes) :
    joinPoint whole fraction = whole ++ pointed fraction := by
  unfold joinPoint pointed
  split
  · rw [List.append_nil]
  · rfl

theorem fractionPart_append {fraction : Bytes} (h : AllDigits fraction) (hrest : NoDigit rest)
    (hpoint : rest.head? ≠ some pointByte) :
    fractionPart (pointed fraction ++ rest) = .ok (pointed fraction, rest) := by
  unfold pointed
  split
  · cases rest with
    | nil => rfl
    | cons byte rest => exact if_neg fun heq => hpoint (congrArg some heq)
  · rename_i hne
    have hspan := span_digits h hrest
    rw [List.cons_append, fractionPart, if_pos rfl, hspan.1, hspan.2, if_neg hne]

theorem exponentSign_append (exponent : ExponentText) (rest : Bytes) :
    exponentSign (exponent.sign.toList ++ (exponent.digits ++ rest))
      = (exponent.sign, exponent.digits ++ rest) := by
  cases hsign : exponent.sign with
  | none =>
    obtain ⟨byte, digits, hdigits⟩ := List.exists_cons_of_ne_nil exponent.ne_nil
    obtain ⟨hminus, hplus⟩ := head_ne_of_allDigits exponent.all hdigits
    rw [hdigits]
    exact if_neg (not_or.mpr ⟨hplus, hminus⟩)
  | some byte => exact if_pos (exponent.sign_eq byte hsign).symm

theorem exponentPart_append {exponent : Option ExponentText}
    (hlimit : ∀ held ∈ exponent, (held.digits.dropWhile isZero).length ≤ exponentDigits)
    (hrest : Stops rest) : exponentPart ((exponent.map ExponentText.bytes).getD [] ++ rest)
      = .ok ((exponent.map ExponentText.bytes).getD [], rest) := by
  cases exponent with
  | none =>
    cases rest with
    | nil => rfl
    | cons byte rest => exact if_neg (hrest byte rfl).2.2
  | some held =>
    have hspan := span_digits held.all hrest.noDigit
    rw [Option.map_some, Option.getD_some, ExponentText.bytes, List.cons_append, List.append_assoc,
      exponentPart, if_pos held.mark_eq, exponentSign_append]
    dsimp only
    rw [hspan.1, hspan.2, if_neg held.ne_nil, if_neg (not_lt.mpr (hlimit held rfl))]

theorem splitSign_append_digits (h : AllDigits whole) (hne : whole ≠ [])
    (negative : Bool) (rest : Bytes) :
    splitSign ((if negative then [minusByte] else []) ++ (whole ++ rest))
      = (negative, whole ++ rest) := by
  obtain ⟨byte, tail, hwhole⟩ := List.exists_cons_of_ne_nil hne
  cases negative with
  | true => rfl
  | false =>
    rw [hwhole]
    exact if_neg (head_ne_of_allDigits h hwhole).1

/-- A number is read to its end, where nothing follows that it could go on with. -/
theorem ReadNumber.number_eq (read : ReadNumber) (hrest : Stops rest) :
    number (read.bytes ++ rest) = .ok (read.bytes, rest) := by
  have hexponent := exponentPart_append read.limit hrest
  -- What follows the fraction is the exponent's mark or the rest.
  have hmarked : NoDigit ((read.exponent.map ExponentText.bytes).getD [] ++ rest) ∧
      ((read.exponent.map ExponentText.bytes).getD [] ++ rest).head? ≠ some pointByte := by
    cases hheld : read.exponent with
    | none => exact ⟨hrest.noDigit, fun h => (hrest pointByte h).2.1 rfl⟩
    | some held =>
      have hmark : isDigit held.mark = false ∧ held.mark ≠ pointByte := by
        rcases held.mark_eq with h | h <;> rw [h] <;> decide
      exact ⟨by rintro _ ⟨⟩; exact hmark.1, fun h => hmark.2 (Option.some.inj h)⟩
  have hfraction := fractionPart_append
    (fun byte hbyte => read.all byte (List.mem_append_right _ hbyte)) hmarked.1 hmarked.2
  have hpointed : NoDigit (pointed read.fraction
      ++ ((read.exponent.map ExponentText.bytes).getD [] ++ rest)) := by
    unfold pointed
    split
    · exact hmarked.1
    · rintro _ ⟨⟩
      decide
  have hwhole := wholePart_append read.allDigits_whole read.ne_nil read.leading hpointed
  rw [NumberText.bytes, NumberText.sign, joinPoint_eq]
  simp only [List.append_assoc]
  rw [number, splitSign_append_digits read.allDigits_whole read.ne_nil]
  simp only [hwhole, hfraction, hexponent, List.append_assoc]

end Rdlt.Json
