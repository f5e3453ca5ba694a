/-
  Rdlt.Json.Accepted

  What the reader accepts is a text of the grammar, and its tokens are those of
  the value the text holds: each step keeps what is open, and what it opens it
  sees closed.
-/

import Rdlt.Json.Tree

namespace Rdlt.Json

/-! ## Inside a container -/

def closing (object : Bool) : Byte := if object then 125 else 93

def ending (object : Bool) : Token := if object then .endObject else .endArray

/-- What is read next where a container has been opened. -/
def opening (object : Bool) : Next := if object then .firstKey else .firstItem

/-- Reads what a container holds: a member's key, or an item. -/
def Reader.entry (object : Bool) (reader : Reader) : Except JsonError (Token × Reader) :=
  if object then reader.key else reader.value

section Accepted

variable {reader : Reader} {tokens : List Token} {outer : List Bool} {bytes : Bytes} {object : Bool}

theorem Accepts.of_map (h : Accepts reader tokens) {read : Except JsonError (Token × Reader)}
    (hnext : reader.next = read.map some) :
    ∃ token after rest, tokens = token :: rest ∧ Accepts after rest ∧
      read = .ok (token, after) := by
  cases h with
  | done hdone =>
    rw [hnext] at hdone
    cases read with
    | error error => cases hdone
    | ok found => cases hdone
  | token htoken hrest =>
    rw [hnext] at htoken
    cases read with
    | error error => cases htoken
    | ok found =>
      cases htoken
      exact ⟨_, _, _, rfl, hrest, rfl⟩

theorem Accepts.value (h : Accepts ⟨bytes, outer, .value⟩ tokens) :
    ∃ token after rest, tokens = token :: rest ∧ Accepts after rest ∧
      Reader.value ⟨Reader.skipWhitespace bytes, outer, .value⟩ = .ok (token, after) :=
  h.of_map rfl

theorem Reader.next_opening : Reader.next ⟨bytes, object :: outer, opening object⟩
      = (if (skipWhitespace bytes).head? = some (closing object)
          then .ok (ending object, ⟨(skipWhitespace bytes).tail, outer, .separator⟩)
          else entry object ⟨skipWhitespace bytes, object :: outer, opening object⟩).map some := by
  by_cases hhead : (skipWhitespace bytes).head? = some (closing object)
  · rw [if_pos hhead]
    cases object <;> exact if_pos hhead
  · rw [if_neg hhead]
    cases object <;> exact if_neg hhead

theorem Reader.next_separator : Reader.next ⟨bytes, object :: outer, .separator⟩
      = (Reader.separated ⟨skipWhitespace bytes, object :: outer, .separator⟩ object).map some :=
        rfl

/-- Behind an entry, a comma leads to another or the container is closed. -/
theorem Reader.separated_ok {token : Token} {after : Reader}
    (h : Reader.separated ⟨bytes, object :: outer, .separator⟩ object = .ok (token, after)) :
    (∃ past, bytes = closing object :: past ∧ token = ending object ∧
        after = ⟨past, outer, .separator⟩) ∨ ∃ past, bytes = 44 :: past ∧
        Reader.entry object ⟨skipWhitespace past, object :: outer, .separator⟩
          = .ok (token, after) := by
  cases bytes with
  | nil => cases object <;> cases h
  | cons byte past =>
    unfold Reader.separated at h
    split at h
    · rename_i hhead
      cases hhead
      exact .inr ⟨past, rfl, h⟩
    · rename_i hhead
      cases hhead
      exact .inr ⟨past, rfl, h⟩
    · rename_i hhead
      cases hhead
      cases h
      exact .inl ⟨past, rfl, rfl, rfl⟩
    · rename_i hhead
      cases hhead
      cases h
      exact .inl ⟨past, rfl, rfl, rfl⟩
    · cases h

/-- `tokens` start with `read`, the tokens of `piece`, and go on behind a value, `outer` open. -/
def Follows (bytes : Bytes) (outer : List Bool) (tokens : List Token) (piece : Bytes)
    (read : List Token) : Prop :=
  ∃ more rest, tokens = read ++ rest ∧ bytes = piece ++ more ∧
    Accepts ⟨more, outer, .separator⟩ rest

theorem Accepts.first (h : Accepts ⟨bytes, object :: outer, opening object⟩ tokens) :
    Follows (Reader.skipWhitespace bytes) outer tokens [closing object] [ending object] ∨
      ∃ token after rest, tokens = token :: rest ∧ Accepts after rest ∧
        Reader.entry object ⟨Reader.skipWhitespace bytes, object :: outer, opening object⟩
          = .ok (token, after) := by
  obtain ⟨token, after, rest, rfl, hrest, hread⟩ := h.of_map Reader.next_opening
  split at hread
  · rename_i hhead
    cases hread
    refine .inl ⟨_, rest, rfl, ?_, hrest⟩
    rw [List.singleton_append]
    exact (List.cons_head?_tail hhead).symm
  · exact .inr ⟨token, after, rest, rfl, hrest, hread⟩

theorem Accepts.more (h : Accepts ⟨bytes, object :: outer, .separator⟩ tokens) :
    Follows (Reader.skipWhitespace bytes) outer tokens [closing object] [ending object] ∨
      ∃ past token after rest, Reader.skipWhitespace bytes = 44 :: past ∧ tokens = token :: rest ∧
        Accepts after rest ∧
          Reader.entry object ⟨Reader.skipWhitespace past, object :: outer, .separator⟩
            = .ok (token, after) := by
  obtain ⟨token, after, rest, rfl, hrest, hread⟩ := h.of_map Reader.next_separator
  rcases Reader.separated_ok hread with ⟨past, hbytes, rfl, rfl⟩ | ⟨past, hbytes, hentry⟩
  · exact .inl ⟨past, rest, rfl, hbytes, hrest⟩
  · exact .inr ⟨past, token, after, rest, hbytes, rfl, hrest, hentry⟩

end Accepted

/-! ## What is open is closed -/

/-- The levels a value may still nest with `opened` open. -/
def levels (opened : List Bool) : Nat := nestingDepth - opened.length

theorem levels_of_room {opened : List Bool} (h : opened.length < nestingDepth) (object : Bool) :
    levels opened = levels (object :: opened) + 1 := by
  rw [levels, levels, List.length_cons]
  omega

/-- What reading on from a value, from inside an array or from inside an object comes to, for fewer
    than `n` tokens more. -/
structure Closes (n : Nat) : Prop where
  value : ∀ {reader after : Reader} {token : Token} {tokens : List Token}, tokens.length < n →
    reader.value = .ok (token, after) → Accepts after tokens →
      ∃ tree piece, ValueText (levels reader.opened) piece tree ∧
        Follows reader.rest reader.opened (token :: tokens) piece tree.tokens
  items : ∀ {bytes : Bytes} {outer : List Bool} {tokens : List Token}, tokens.length < n →
    Accepts ⟨bytes, false :: outer, .separator⟩ tokens →
      ∃ items piece, MoreItems (levels (false :: outer)) piece items ∧
        Follows bytes outer tokens (piece ++ [93]) (items.tokens ++ [.endArray])
  members : ∀ {bytes : Bytes} {outer : List Bool} {tokens : List Token}, tokens.length < n →
    Accepts ⟨bytes, true :: outer, .separator⟩ tokens →
      ∃ members piece, MoreMembers (levels (true :: outer)) piece members ∧
        Follows bytes outer tokens (piece ++ [125]) (members.tokens ++ [.endObject])

namespace Follows

variable {bytes piece : Bytes} {outer : List Bool} {tokens read : List Token}

theorem append_left (h : Follows bytes outer tokens piece read) (before : Bytes) :
    Follows (before ++ bytes) outer tokens (before ++ piece) read := by
  obtain ⟨more, rest, htokens, rfl, hrest⟩ := h
  exact ⟨more, rest, htokens, (List.append_assoc ..).symm, hrest⟩

end Follows

theorem Tree.tokens_pos (tree : Tree) : 0 < tree.tokens.length := by
  cases tree <;> simp [Tree.tokens]

namespace Closes

variable {n : Nat} {reader after : Reader} {token : Token} {tokens : List Token} {outer : List Bool}

theorem item (h : Closes n) (htokens : tokens.length < n) (hopened : reader.opened = false :: outer)
    (hvalue : reader.value = .ok (token, after)) (haccepts : Accepts after tokens) :
    ∃ item items piece more, ValueText (levels (false :: outer)) piece item ∧
      MoreItems (levels (false :: outer)) more items ∧
        Follows reader.rest outer (token :: tokens) (piece ++ (more ++ [93]))
          ((Items.cons item items).tokens ++ [.endArray]) := by
  obtain ⟨tree, piece, htree, past, rest, hsplit, hbytes, hrest⟩ := h.value htokens hvalue haccepts
  have hfewer : rest.length < n := by
    have hlen := congrArg List.length hsplit
    have hpos := tree.tokens_pos
    rw [List.length_cons, List.length_append] at hlen
    omega
  rw [hopened] at htree hrest
  obtain ⟨items, more, hitems, past', rest', hsplit', hbytes', hrest'⟩ := h.items hfewer hrest
  refine ⟨tree, items, piece, more, htree, hitems, past', rest', ?_, ?_, hrest'⟩
  · rw [hsplit, hsplit', Items.tokens]
    simp only [List.append_assoc]
  · rw [hbytes, hbytes']
    simp only [List.append_assoc]

/-- A key read, then its value and the rest of its object. -/
theorem member (h : Closes n) (htokens : tokens.length < n)
    (hopened : reader.opened = true :: outer)
    (hkey : reader.key = .ok (token, after)) (haccepts : Accepts after tokens) :
    ∃ key whole value members piece more, MemberText (levels (true :: outer)) piece key value ∧
      MoreMembers (levels (true :: outer)) more members ∧
        Follows reader.rest outer (token :: tokens) (piece ++ (more ++ [125]))
          ((Members.cons key whole value members).tokens ++ [.endObject]) := by
  obtain ⟨key, name, before, text, hwritten, hbefore, rfl, hrestOf, rfl⟩ := Reader.key_ok hkey
  obtain ⟨first, past, rest, rfl, hrest, hvalue⟩ := haccepts.value
  obtain ⟨blank, hblank, htext⟩ := Reader.exists_blank text
  rw [List.length_cons] at htokens
  obtain ⟨tree, piece, htree, past', rest', hsplit, hbytes, hrest'⟩ :=
    h.value (by omega) hvalue hrest
  have hfewer : rest'.length < n := by
    have hlen := congrArg List.length hsplit
    have hpos := tree.tokens_pos
    rw [List.length_cons, List.length_append] at hlen
    omega
  rw [hopened] at htree hrest'
  obtain ⟨members, more, hmembers, past'', rest'', hsplit'', hbytes'', hrest''⟩ :=
    h.members hfewer hrest'
  refine ⟨key, Option.isSome_of_eq_some hwritten.unescaped, tree, members,
    key.quoted ++ (before ++ 58 :: (blank ++ piece)), more,
    .mk hwritten hbefore hblank htree, hmembers,
    past'', rest'', ?_, ?_, hrest''⟩
  · rw [hsplit, hsplit'', Members.tokens]
    simp only [List.cons_append, List.append_assoc]
  · rw [hrestOf, htext]
    dsimp only at hbytes
    rw [hbytes, hbytes'']
    simp only [List.append_assoc, List.cons_append]

end Closes

/-- Whatever is open, the reader sees it closed. -/
theorem closes (n : Nat) : Closes n := by
  induction n with
  | zero =>
    exact ⟨fun h => absurd h (Nat.not_lt_zero _), fun h => absurd h (Nat.not_lt_zero _),
      fun h => absurd h (Nat.not_lt_zero _)⟩
  | succ n ih =>
    refine ⟨?_, ?_, ?_⟩
    · intro reader after token tokens htokens hvalue haccepts
      cases Reader.value_ok hvalue with
      | leaf tree htree hwritten htext =>
        exact ⟨tree, _, hwritten _, _, tokens, by rw [htree]; rfl, htext, haccepts⟩
      | @array text room htext =>
        rw [htext, levels_of_room room false]
        obtain ⟨blank, hblank, hsplit⟩ := Reader.exists_blank text
        have hfirst : Accepts ⟨text, false :: reader.opened, opening false⟩ tokens := haccepts
        rcases hfirst.first with hclose | ⟨first, past, rest, rfl, hrest, hitem⟩
        · obtain ⟨more, rest, rfl, hmore, hrest⟩ := hclose
          refine ⟨_, _, .emptyArray hblank, more, rest, rfl, ?_, hrest⟩
          rw [hsplit, hmore]
          simp [closing]
        · rw [List.length_cons] at htokens
          obtain ⟨item, items, piece, more, hpiece, hitems, past', rest', hsplit',
            hbytes, hrest'⟩ :=
            ih.item (by omega) rfl hitem hrest
          refine ⟨_, _, .array hblank hpiece hitems, past', rest', ?_, ?_, hrest'⟩
          · rw [hsplit', Tree.tokens, List.cons_append]
          · dsimp only at hbytes
            rw [hsplit, hbytes]
            simp only [List.append_assoc, List.cons_append]
      | @object text room htext =>
        rw [htext, levels_of_room room true]
        obtain ⟨blank, hblank, hsplit⟩ := Reader.exists_blank text
        have hfirst : Accepts ⟨text, true :: reader.opened, opening true⟩ tokens := haccepts
        rcases hfirst.first with hclose | ⟨first, past, rest, rfl, hrest, hkey⟩
        · obtain ⟨more, rest, rfl, hmore, hrest⟩ := hclose
          refine ⟨_, _, .emptyObject hblank, more, rest, rfl, ?_, hrest⟩
          rw [hsplit, hmore]
          simp [closing]
        · rw [List.length_cons] at htokens
          obtain ⟨key, whole, value, members, piece, more, hpiece, hmembers, past', rest', hsplit',
            hbytes, hrest'⟩ := ih.member (by omega) rfl hkey hrest
          refine ⟨.object (.cons key whole value members), _,
            .object hblank hpiece hmembers, past', rest',
            ?_, ?_, hrest'⟩
          · rw [hsplit', Tree.tokens, List.cons_append]
          · dsimp only at hbytes
            rw [hsplit, hbytes]
            simp only [List.append_assoc, List.cons_append]
    · intro bytes outer tokens htokens haccepts
      obtain ⟨blank, hblank, hsplit⟩ := Reader.exists_blank bytes
      rcases haccepts.more with hclose | ⟨past, first, after, rest, hpast, rfl, hrest, hitem⟩
      · rw [hsplit]
        exact ⟨.nil, blank, .nil hblank, hclose.append_left blank⟩
      · rw [List.length_cons] at htokens
        obtain ⟨blank', hblank', hsplit'⟩ := Reader.exists_blank past
        obtain ⟨item, items, piece, more, hpiece, hitems, hfollows⟩ :=
          ih.item (by omega) rfl hitem hrest
        refine ⟨_, _, .cons hblank hblank' hpiece hitems, ?_⟩
        have h := hfollows.append_left (blank ++ 44 :: blank')
        rw [hsplit, hpast, hsplit']
        simpa only [List.append_assoc, List.cons_append] using h
    · intro bytes outer tokens htokens haccepts
      obtain ⟨blank, hblank, hsplit⟩ := Reader.exists_blank bytes
      rcases haccepts.more with hclose | ⟨past, first, after, rest, hpast, rfl, hrest, hkey⟩
      · rw [hsplit]
        exact ⟨.nil, blank, .nil hblank, hclose.append_left blank⟩
      · rw [List.length_cons] at htokens
        obtain ⟨blank', hblank', hsplit'⟩ := Reader.exists_blank past
        obtain ⟨key, whole, value, members, piece, more, hpiece, hmembers, hfollows⟩ :=
          ih.member (by omega) rfl hkey hrest
        refine ⟨.cons key whole value members, _, .cons hblank hblank' hpiece hmembers, ?_⟩
        have h := hfollows.append_left (blank ++ 44 :: blank')
        rw [hsplit, hpast, hsplit']
        simpa only [List.append_assoc, List.cons_append] using h

theorem jsonText_of_accepts {text : Bytes} {tokens : List Token}
    (h : Accepts (Reader.new text) tokens) :
    ∃ tree : Tree, JsonText text tree ∧ tokens = tree.tokens := by
  obtain ⟨first, past, rest, rfl, hrest, hvalue⟩ := h.value
  obtain ⟨blank, hblank, hsplit⟩ := Reader.exists_blank text
  obtain ⟨tree, piece, htree, more, rest', htokens, hbytes, haccepts⟩ :=
    (closes (rest.length + 1)).value (Nat.lt_succ_self _) hvalue hrest
  obtain ⟨blank', hblank', hsplit'⟩ := Reader.exists_blank more
  have hnext : Reader.next ⟨more, [], .separator⟩ = if Reader.skipWhitespace more = [] then .ok none
      else .error (.invalid "more follows the value") := rfl
  -- Nothing is open, so nothing but the end can follow.
  cases haccepts with
  | done hdone =>
    rw [hnext] at hdone
    split at hdone
    · rename_i hend
      rw [hend, List.append_nil] at hsplit'
      refine ⟨tree, ⟨blank, piece, more, hblank, hsplit' ▸ hblank', ?_, htree⟩, ?_⟩
      · exact hsplit.trans (congrArg (blank ++ ·) hbytes)
      · rw [htokens, List.append_nil]
    · cases hdone
  | token htoken =>
    rw [hnext] at htoken
    split at htoken <;> cases htoken

end Rdlt.Json
