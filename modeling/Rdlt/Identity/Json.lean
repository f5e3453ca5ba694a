/-
  Rdlt.Identity.Json

  JSON text encoded as the value it holds: read a token at a time, the containers
  open kept beside what is encoded so far. The encoding of every text the reader
  accepts is that of the value its tree denotes.
-/

import Rdlt.Identity.Value
import Rdlt.Json.Complete

namespace Rdlt.Identity

open Json (JsonError Reader Token Tree Items Members Accepts textBytes)
open Lib (withLength)

/-! ## The encoder -/

/-- A container being encoded: an array's encoding so far, or an object's members encoded so far and
    the key of the member being read. -/
inductive Open
  | array (items : Bytes)
  | object (members : List (Bytes × Bytes)) (key : Bytes)
  deriving DecidableEq, Repr

/-- The containers open, the innermost first, and what is encoded outside of any. -/
structure Encoding where
  opened : List Open
  out : Bytes
  deriving DecidableEq, Repr

def sortByName {α : Type} (named : List (Bytes × α)) : List (Bytes × α) :=
  named.insertionSort fun left right => left.1 ≤ right.1

def object (members : List (Bytes × Bytes)) : Bytes :=
  objectTag :: ((sortByName members).flatMap fun member =>
    fieldTag :: (withLength member.1 ++ member.2)) ++ [objectEnd]

namespace Encoding

/-- Places the encoding of a value read, none for a null, where the container open takes it: an
    object leaves out a null member. -/
def place (encoding : Encoding) (encoded : Option Bytes) : Encoding :=
  match encoding.opened, encoded with
  | [], encoded => { encoding with out := encoding.out ++ encoded.getD [nullTag] }
  | .array items :: outer, encoded =>
    { encoding with opened := .array (items ++ encoded.getD [nullTag]) :: outer }
  | .object _ _ :: _, none => encoding
  | .object members key :: outer, some encoded =>
    { encoding with opened := .object (members ++ [(key, encoded)]) [] :: outer }

/-- The text of a string the reader checked. -/
def unescaped (text : Json.Text) : Except JsonError Bytes :=
  match text.unescaped with
  | some bytes => .ok bytes
  | none => .error (.invalid "a reader read the text, so its escapes are whole")

def token (encoding : Encoding) : Token → Except JsonError Encoding
  | .null => .ok (encoding.place none)
  | .bool value => .ok (encoding.place (some [if value then trueTag else falseTag]))
  | .number written =>
    match Json.writeNumber written with
    | .error error => .error error
    | .ok text => .ok (encoding.place (some (numberTag :: withLength text)))
  | .string text =>
    match unescaped text with
    | .error error => .error error
    | .ok bytes => .ok (encoding.place (some (stringTag :: withLength bytes)))
  | .key name =>
    match unescaped name with
    | .error error => .error error
    | .ok bytes =>
      match encoding.opened with
      | .object members _ :: outer =>
        .ok { encoding with opened := .object members bytes :: outer }
      | _ => .ok encoding
  | .beginObject => .ok { encoding with opened := .object [] [] :: encoding.opened }
  | .beginArray => .ok { encoding with opened := .array [arrayTag] :: encoding.opened }
  | .endObject | .endArray =>
    match encoding.opened with
    | [] => .error (.invalid "a container closes that never opened")
    | .array items :: outer =>
      .ok ({ encoding with opened := outer }.place (some (items ++ [arrayEnd])))
    | .object members _ :: outer =>
      .ok ({ encoding with opened := outer }.place (some (object members)))

/-- Encodes what `reader` reads, to its end; `fuel` bounds the tokens. -/
def run (fuel : Nat) (reader : Reader) (encoding : Encoding) : Except JsonError Bytes :=
  match fuel with
  | 0 => .error (.invalid "the text does not end")
  | fuel + 1 =>
    match reader.next with
    | .error error => .error error
    | .ok none => .ok encoding.out
    | .ok (some (token, after)) =>
      match encoding.token token with
      | .error error => .error error
      | .ok encoding => run fuel after encoding

end Encoding

def json (text : Bytes) : Except JsonError Bytes :=
  Encoding.run (text.length + 1) (Reader.new text) ⟨[], []⟩

/-! ## What a text denotes -/

mutual

/-- The value a tree denotes: an object's null members are none, and the order they are written in
    is not kept. -/
def treeValue : Tree → Value
  | .null => .null
  | .bool value => .bool value
  | .number read => .number read.exact
  | .string text _ => .string (text.unescaped.getD [])
  | .array items => .array (.ofList (itemValues items))
  | .object members => .object (.ofList (sortByName (memberValues members)))

def itemValues : Items → List Value
  | .nil => []
  | .cons item rest => treeValue item :: itemValues rest

def memberValues : Members → List (Bytes × Value)
  | .nil => []
  | .cons key _ value rest =>
    if treeValue value = .null then memberValues rest
    else (key.unescaped.getD [], treeValue value) :: memberValues rest

end

def Holds (text : Bytes) (value : Value) : Prop :=
  ∃ tree : Tree, Accepts (Reader.new text) tree.tokens ∧ treeValue tree = value

/-! ## Encoding a tree's tokens -/

def Encoding.tokens (encoding : Encoding) (tokens : List Token) : Except JsonError Encoding :=
  tokens.foldlM Encoding.token encoding

/-- What a container is given of a value: nothing of a null. -/
noncomputable def encoded (value : Value) : Option Bytes :=
  if value = .null then none else some value.write

theorem encoded_getD (value : Value) : (encoded value).getD [nullTag] = value.write := by
  unfold encoded
  split
  · rename_i h
    rw [h, Value.write]
    rfl
  · rfl

theorem Encoding.tokens_append {encoding after : Encoding} {left : List Token}
    (h : encoding.tokens left = .ok after) (right : List Token) :
    encoding.tokens (left ++ right) = after.tokens right := by
  unfold Encoding.tokens at h ⊢
  rw [List.foldlM_append, h]
  rfl

theorem Encoding.tokens_cons {encoding after : Encoding} {token : Token}
    (h : encoding.token token = .ok after) (rest : List Token) :
    encoding.tokens (token :: rest) = after.tokens rest := by
  unfold Encoding.tokens
  rw [List.foldlM_cons, h]
  rfl

theorem unescaped_of_isSome {text : Json.Text} (h : text.unescaped.isSome = true) :
    Encoding.unescaped text = .ok (text.unescaped.getD []) := by
  obtain ⟨bytes, hbytes⟩ := Option.isSome_iff_exists.mp h
  rw [Encoding.unescaped, hbytes]
  rfl

theorem sortByName_map {α β : Type} (f : α → β) (named : List (Bytes × α)) :
    sortByName (named.map fun member => (member.1, f member.2))
      = (sortByName named).map fun member => (member.1, f member.2) :=
  (List.map_insertionSort (fun left right : Bytes × α => left.1 ≤ right.1)
    (fun left right : Bytes × β => left.1 ≤ right.1) (fun member => (member.1, f member.2)) named
    fun _ _ _ _ => Iff.rfl).symm

theorem object_eq (members : List (Bytes × Value)) :
    object (members.map fun member => (member.1, member.2.write))
      = (Value.object (.ofList (sortByName members))).write := by
  rw [object, sortByName_map, List.flatMap_map, Value.write, Fields.write_ofList, List.cons_append]

/-- No number among the tokens is as long as a text may be. -/
def Short (tokens : List Token) : Prop := ∀ token ∈ tokens, token.weight < textBytes

namespace Short

variable {token : Token} {front back : List Token}

theorem tail (h : Short (token :: back)) : Short back := fun other hother =>
  h other (List.mem_cons_of_mem _ hother)

theorem left (h : Short (front ++ back)) : Short front := fun token htoken =>
  h token (List.mem_append_left _ htoken)

theorem right (h : Short (front ++ back)) : Short back := fun token htoken =>
  h token (List.mem_append_right _ htoken)

end Short

mutual

theorem tokens_tree : ∀ (tree : Tree) (encoding : Encoding), Short tree.tokens →
    encoding.tokens tree.tokens = .ok (encoding.place (encoded (treeValue tree)))
  | .null, encoding, _ => rfl
  | .bool value, encoding, _ => by
    rw [treeValue, encoded, if_neg (by simp), Value.write]
    rfl
  | .number read, encoding, hshort => by
    have hlength : read.bytes.length < textBytes := hshort _ List.mem_cons_self
    have hbounded : read.Bounded := ⟨read.limit, hlength.trans (by norm_num [textBytes])⟩
    have htoken : encoding.token (.number read.bytes)
        = .ok (encoding.place (some (numberTag :: withLength (Json.exactText read.exact)))) := by
      rw [Encoding.token, Json.writeNumber_bytes hbounded]
    rw [treeValue, encoded, if_neg (by simp), Value.write, Tree.tokens, Encoding.tokens_cons htoken]
    rfl
  | .string text whole, encoding, _ => by
    have htoken : encoding.token (.string text)
        = .ok (encoding.place (some (stringTag :: withLength (text.unescaped.getD [])))) := by
      rw [Encoding.token, unescaped_of_isSome whole]
    rw [treeValue, encoded, if_neg (by simp), Value.write, Tree.tokens, Encoding.tokens_cons htoken]
    rfl
  | .array items, encoding, hshort => by
    have hopen : encoding.token .beginArray
        = .ok { encoding with opened := .array [arrayTag] :: encoding.opened } := rfl
    rw [treeValue, encoded, if_neg (by simp), Value.write, Tree.tokens, Encoding.tokens_cons hopen,
      Encoding.tokens_append (tokens_items items _ _ encoding.opened rfl hshort.tail.left),
      Values.write_ofList]
    rfl
  | .object members, encoding, hshort => by
    have hopen : encoding.token .beginObject
        = .ok { encoding with opened := .object [] [] :: encoding.opened } := rfl
    obtain ⟨key, hmembers⟩ := tokens_members members
      { encoding with opened := .object [] [] :: encoding.opened } []
      [] encoding.opened rfl hshort.tail.left
    rw [treeValue, encoded, if_neg (by simp), ← object_eq, Tree.tokens, Encoding.tokens_cons hopen,
      Encoding.tokens_append hmembers]
    rfl

theorem tokens_items : ∀ (items : Items) (encoding : Encoding) (before : Bytes) (outer : List Open),
    encoding.opened = .array before :: outer → Short items.tokens → encoding.tokens items.tokens
        = .ok ⟨.array (before ++ (itemValues items).flatMap Value.write) :: outer, encoding.out⟩
  | .nil, encoding, before, outer, h, _ => by
    rw [itemValues, List.flatMap_nil, List.append_nil, ← h]
    rfl
  | .cons item rest, encoding, before, outer, h, hshort => by
    have hplace : encoding.place (encoded (treeValue item))
        = ⟨.array (before ++ (treeValue item).write) :: outer, encoding.out⟩ := by
      unfold Encoding.place
      simp only [h, encoded_getD]
    rw [Items.tokens, Encoding.tokens_append (tokens_tree item encoding hshort.left), hplace,
      tokens_items rest _ _ outer rfl hshort.right, itemValues, List.flatMap_cons,
      List.append_assoc]

/-- An object's members are encoded each beside its key, a null one left out. -/
theorem tokens_members : ∀ (members : Members) (encoding : Encoding) (before : List (Bytes × Bytes))
    (key : Bytes) (outer : List Open), encoding.opened = .object before key :: outer →
      Short members.tokens → ∃ last, encoding.tokens members.tokens = .ok
        ⟨.object (before ++ (memberValues members).map fun member =>
          (member.1, member.2.write)) last
          :: outer, encoding.out⟩
  | .nil, encoding, before, key, outer, h, _ => by
    refine ⟨key, ?_⟩
    rw [memberValues, List.map_nil, List.append_nil, ← h]
    rfl
  | .cons name whole value rest, encoding, before, key, outer, h, hshort => by
    have hkey : encoding.token (.key name)
        = .ok { encoding with opened := .object before (name.unescaped.getD []) :: outer } := by
      rw [Encoding.token, unescaped_of_isSome whole]
      simp only [h]
    rw [Members.tokens, Encoding.tokens_cons hkey, Encoding.tokens_append
      (tokens_tree value _ hshort.tail.left)]
    by_cases hnull : treeValue value = .null
    · rw [memberValues, if_pos hnull, encoded, if_pos hnull]
      exact tokens_members rest _ before (name.unescaped.getD []) outer rfl hshort.tail.right
    · obtain ⟨last, hrest⟩ := tokens_members rest
        ⟨.object (before ++ [(name.unescaped.getD [], (treeValue value).write)]) [] :: outer,
          encoding.out⟩ _ [] outer rfl hshort.tail.right
      refine ⟨last, ?_⟩
      rw [memberValues, if_neg hnull, encoded, if_neg hnull]
      refine hrest.trans ?_
      simp only [List.append_assoc, List.map_cons, List.singleton_append]

end

/-! ## The encoding of a text -/

theorem Encoding.run_accepts {reader : Reader} {tokens : List Token} (h : Accepts reader tokens)
    {fuel : Nat} (hfuel : tokens.length < fuel) {encoding final : Encoding}
    (htokens : encoding.tokens tokens = .ok final) : encoding.run fuel reader = .ok final.out := by
  induction h generalizing fuel encoding with
  | done hdone =>
    obtain ⟨fuel, rfl⟩ := Nat.exists_eq_add_one.mpr hfuel.pos
    cases htokens
    simp only [Encoding.run, hdone]
  | @token reader after token tokens hnext hrest ih =>
    obtain ⟨fuel, rfl⟩ := Nat.exists_eq_add_one.mpr hfuel.pos
    unfold Encoding.tokens at htokens
    rw [List.foldlM_cons] at htokens
    cases hread : encoding.token token with
    | error error => rw [hread] at htokens; cases htokens
    | ok encoding' =>
      rw [hread] at htokens
      simp only [Encoding.run, hnext, hread]
      exact ih (Nat.lt_of_succ_lt_succ hfuel) htokens

theorem json_eq {text : Bytes} {value : Value} (hlength : text.length < textBytes)
    (h : Holds text value) : json text = .ok value.write := by
  obtain ⟨tree, haccepts, rfl⟩ := h
  obtain ⟨hfew, hweights⟩ : tree.tokens.length ≤ text.length ∧ _ := haccepts.bounded
  have hshort : Short tree.tokens := fun token htoken => (hweights token htoken).trans_lt hlength
  rw [json, Encoding.run_accepts haccepts (Nat.lt_succ_of_le hfew)
    (tokens_tree tree ⟨[], []⟩ hshort)]
  exact congrArg Except.ok (encoded_getD _)

end Rdlt.Identity
