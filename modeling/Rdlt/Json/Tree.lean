/-
  Rdlt.Json.Tree

  The value a JSON text holds, as a tree whose leaves are the numbers and strings
  as they are written; RFC 8259's grammar, as the texts of each tree; and what one
  step of the reader reads of a text.
-/

import Rdlt.Json.Reader

namespace Rdlt.Json

mutual

/-- A JSON value as a text writes it. -/
inductive Tree
  | null
  | bool (value : Bool)
  | number (read : ReadNumber)
  | string (text : Text) (whole : text.unescaped.isSome = true)
  | array (items : Items)
  | object (members : Members)

inductive Items
  | nil
  | cons (item : Tree) (rest : Items)

inductive Members
  | nil
  | cons (key : Text) (whole : key.unescaped.isSome = true) (value : Tree) (rest : Members)

end

mutual

def Tree.tokens : Tree → List Token
  | .null => [.null]
  | .bool value => [.bool value]
  | .number read => [.number read.bytes]
  | .string text _ => [.string text]
  | .array items => .beginArray :: (items.tokens ++ [.endArray])
  | .object members => .beginObject :: (members.tokens ++ [.endObject])

def Items.tokens : Items → List Token
  | .nil => []
  | .cons item rest => item.tokens ++ rest.tokens

def Members.tokens : Members → List Token
  | .nil => []
  | .cons key _ value rest => .key key :: (value.tokens ++ rest.tokens)

end

/-! ## The grammar -/

def Blank (bytes : Bytes) : Prop := ∀ byte ∈ bytes, byte = 32 ∨ byte = 9 ∨ byte = 10 ∨ byte = 13

def Text.quoted (text : Text) : Bytes := quoteByte :: (text.raw ++ [quoteByte])

mutual

/-- A value of at most `n` levels as RFC 8259 writes it. -/
inductive ValueText : Nat → Bytes → Tree → Prop
  | null {n : Nat} : ValueText n [110, 117, 108, 108] .null
  | true {n : Nat} : ValueText n [116, 114, 117, 101] (.bool true)
  | false {n : Nat} : ValueText n [102, 97, 108, 115, 101] (.bool false)
  | number {n : Nat} (read : ReadNumber) : ValueText n read.bytes (.number read)
  | string {n : Nat} {text : Text} {value : Bytes} (h : text.Written value)
      (whole : text.unescaped.isSome = true) : ValueText n text.quoted (.string text whole)
  | emptyArray {n : Nat} {blank : Bytes} (hblank : Blank blank) :
      ValueText (n + 1) (91 :: (blank ++ [93])) (.array .nil)
  | array {n : Nat} {blank bytes more : Bytes} {item : Tree} {items : Items} (hblank : Blank blank)
      (first : ValueText n bytes item) (rest : MoreItems n more items) :
      ValueText (n + 1) (91 :: (blank ++ (bytes ++ (more ++ [93])))) (.array (.cons item items))
  | emptyObject {n : Nat} {blank : Bytes} (hblank : Blank blank) :
      ValueText (n + 1) (123 :: (blank ++ [125])) (.object .nil)
  | object {n : Nat} {blank bytes more : Bytes} {key : Text}
      {whole : key.unescaped.isSome = true} {value : Tree} {members : Members}
      (hblank : Blank blank)
      (first : MemberText n bytes key value) (rest : MoreMembers n more members) :
      ValueText (n + 1) (123 :: (blank ++ (bytes ++ (more ++ [125]))))
        (.object (.cons key whole value members))

/-- What follows an item up to its array's closing bracket: commas, and an item after each. -/
inductive MoreItems : Nat → Bytes → Items → Prop
  | nil {n : Nat} {blank : Bytes} (hblank : Blank blank) : MoreItems n blank .nil
  | cons {n : Nat} {before past bytes more : Bytes} {item : Tree} {items : Items}
      (hbefore : Blank before) (hpast : Blank past) (next : ValueText n bytes item)
      (rest : MoreItems n more items) :
      MoreItems n (before ++ 44 :: (past ++ (bytes ++ more))) (.cons item items)

inductive MemberText : Nat → Bytes → Text → Tree → Prop
  | mk {n : Nat} {before past bytes : Bytes} {key : Text} {name : Bytes} {value : Tree}
      (hkey : key.Written name) (hbefore : Blank before) (hpast : Blank past)
      (held : ValueText n bytes value) :
      MemberText n (key.quoted ++ (before ++ 58 :: (past ++ bytes))) key value

/-- What follows a member up to its object's closing brace: commas, and a member after each. -/
inductive MoreMembers : Nat → Bytes → Members → Prop
  | nil {n : Nat} {blank : Bytes} (hblank : Blank blank) : MoreMembers n blank .nil
  | cons {n : Nat} {before past bytes more : Bytes} {key : Text}
      {whole : key.unescaped.isSome = true} {value : Tree} {members : Members}
      (hbefore : Blank before) (hpast : Blank past) (next : MemberText n bytes key value)
      (rest : MoreMembers n more members) :
      MoreMembers n (before ++ 44 :: (past ++ (bytes ++ more))) (.cons key whole value members)

end

/-- A text that is one JSON value, of no more levels than the reader takes. -/
def JsonText (text : Bytes) (tree : Tree) : Prop :=
  ∃ before bytes past, Blank before ∧ Blank past ∧ text = before ++ (bytes ++ past) ∧
    ValueText nestingDepth bytes tree

/-! ## Whitespace -/

namespace Reader

theorem exists_blank (bytes : Bytes) :
    ∃ blank, Blank blank ∧ bytes = blank ++ skipWhitespace bytes := by
  refine ⟨_, fun byte hbyte => ?_, (List.takeWhile_append_dropWhile).symm⟩
  simpa using List.mem_takeWhile_imp hbyte

theorem skipWhitespace_blank {blank : Bytes} (h : Blank blank) (bytes : Bytes) :
    skipWhitespace (blank ++ bytes) = skipWhitespace bytes :=
  List.dropWhile_append_of_pos fun byte hbyte => decide_eq_true (h byte hbyte)

theorem skipWhitespace_cons {byte : Byte} (h : ¬ (byte = 32 ∨ byte = 9 ∨ byte = 10 ∨ byte = 13))
    (bytes : Bytes) : skipWhitespace (byte :: bytes) = byte :: bytes :=
  List.dropWhile_cons_of_neg (by simpa using h)

/-! ## What one read reads -/

variable {reader after : Reader} {token : Token}

/-- What reading a value leaves: a container opened, or the rest of the text behind a leaf. -/
inductive Opens (reader : Reader) : Token → Reader → Prop
  | object {rest : Bytes} (room : reader.opened.length < nestingDepth)
      (text : reader.rest = 123 :: rest) :
      Opens reader .beginObject ⟨rest, true :: reader.opened, .firstKey⟩
  | array {rest : Bytes} (room : reader.opened.length < nestingDepth)
      (text : reader.rest = 91 :: rest) :
      Opens reader .beginArray ⟨rest, false :: reader.opened, .firstItem⟩
  | leaf {token : Token} {piece rest : Bytes} (tree : Tree) (tokens : tree.tokens = [token])
      (written : ∀ n, ValueText n piece tree) (text : reader.rest = piece ++ rest) :
      Opens reader token ⟨rest, reader.opened, .separator⟩

theorem literal_ok {word : Bytes} {read : Token} {tree : Tree}
    (hword : ∀ n, ValueText n word tree) (htree : tree.tokens = [token])
    (h : reader.literal word token = .ok (read, after)) : Opens reader read after := by
  unfold literal at h
  split at h
  · rename_i hstarts
    cases h
    obtain ⟨rest, hrest⟩ := List.isPrefixOf_iff_prefix.mp hstarts
    have hdrop : reader.rest.drop word.length = rest := by rw [← hrest, List.drop_left]
    rw [hdrop]
    exact .leaf tree htree hword hrest.symm
  · cases h

/-- A value read is a container opened or a leaf. -/
theorem value_ok (h : reader.value = .ok (token, after)) : Opens reader token after := by
  unfold value at h
  cases hrest : reader.rest with
  | nil => simp [hrest] at h
  | cons byte tail =>
    simp only [hrest] at h
    split at h
    · next hopen =>
        split at h
        · cases h
        · next hroom =>
            split at h
            · rename_i hobject
              cases h
              exact .object (not_le.mp hroom) (hobject ▸ hrest)
            · rename_i hobject
              cases h
              exact .array (not_le.mp hroom) (hopen.resolve_left hobject ▸ hrest)
    · split at h
      · rename_i hquote
        cases htext : Text.read tail with
        | error error => simp [htext] at h
        | ok found =>
          obtain ⟨text, rest⟩ := found
          simp only [htext] at h
          cases h
          obtain ⟨value, hwritten, rfl⟩ := Text.read_iff.mp htext
          have hwhole := Option.isSome_of_eq_some hwritten.unescaped
          refine .leaf (.string text hwhole) rfl (fun n => .string hwritten hwhole) ?_
          rw [hrest, hquote, Text.quoted]
          simp
      · split at h
        · exact literal_ok (fun _ => ValueText.true) rfl h
        · split at h
          · exact literal_ok (fun _ => ValueText.false) rfl h
          · split at h
            · exact literal_ok (fun _ => ValueText.null) rfl h
            · split at h
              · rw [← hrest] at h
                cases hnumber : number reader.rest with
                | error error => simp [hnumber] at h
                | ok found =>
                  obtain ⟨written, rest⟩ := found
                  simp only [hnumber] at h
                  cases h
                  obtain ⟨read, rfl, hsplit⟩ := number_ok hnumber
                  exact .leaf (.number read) rfl (fun _ => .number read) hsplit
              · cases h

/-- A key read is a string, a colon behind it, and its value is due. -/
theorem key_ok (h : reader.key = .ok (token, after)) :
    ∃ (text : Text) (name before rest : Bytes), text.Written name ∧ Blank before ∧
      token = .key text ∧ reader.rest = text.quoted ++ (before ++ 58 :: rest) ∧
        after = ⟨rest, reader.opened, .value⟩ := by
  unfold key at h
  cases hrest : reader.rest with
  | nil => simp [hrest] at h
  | cons byte tail =>
    simp only [hrest] at h
    split at h
    · next hquote =>
        cases htext : Text.read tail with
        | error error => simp [htext] at h
        | ok found =>
          obtain ⟨text, rest⟩ := found
          simp only [htext] at h
          obtain ⟨name, hwritten, rfl⟩ := Text.read_iff.mp htext
          obtain ⟨before, hbefore, hsplit⟩ := exists_blank rest
          cases hcolon : skipWhitespace rest with
          | nil => simp [hcolon] at h
          | cons colon final =>
            simp only [hcolon] at h
            split at h
            · rename_i hcolon'
              cases h
              refine ⟨text, name, before, final, hwritten, hbefore, rfl, ?_, rfl⟩
              rw [hsplit, hcolon, hcolon', hquote, Text.quoted]
              simp
            · cases h
    · cases h

end Reader

end Rdlt.Json
