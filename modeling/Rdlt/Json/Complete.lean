/-
  Rdlt.Json.Complete

  Every text of the grammar is read to its end, by the tokens of the value it
  holds; and reading any text ends, each token shortening what is left of it.
-/

import Rdlt.Json.Accepted

namespace Rdlt.Json

variable {rest bytes : Bytes} {n : Nat}

/-! ## What stands at an end -/

/-- A byte that ends a value: whitespace, a comma, or what closes a container. -/
def endsValue (byte : Byte) : Bool :=
  byte = 32 ∨ byte = 9 ∨ byte = 10 ∨ byte = 13 ∨ byte = 44 ∨ byte = 93 ∨ byte = 125

theorem stops_of_endsValue (h : ∀ byte ∈ rest.head?, endsValue byte = true) : Stops rest := by
  intro byte hbyte
  have hends := h byte hbyte
  simp only [endsValue, decide_eq_true_eq] at hends
  rcases hends with rfl | rfl | rfl | rfl | rfl | rfl | rfl <;> decide

theorem stops_blank {blank : Bytes} (h : Blank blank)
    (hrest : ∀ byte ∈ rest.head?, endsValue byte = true) : Stops (blank ++ rest) := by
  refine stops_of_endsValue fun byte hbyte => ?_
  cases blank with
  | nil => exact hrest byte hbyte
  | cons first blank =>
    cases hbyte
    have hfirst := h byte List.mem_cons_self
    simp only [endsValue, decide_eq_true_eq]
    tauto

theorem MoreItems.stops {more : Bytes} {items : Items} (h : MoreItems n more items)
    (rest : Bytes) : Stops (more ++ 93 :: rest) := by
  cases h with
  | nil hblank => exact stops_blank hblank (by rintro _ ⟨⟩; rfl)
  | cons hbefore =>
    rw [List.append_assoc]
    exact stops_blank hbefore (by rintro _ ⟨⟩; rfl)

theorem MoreMembers.stops {more : Bytes} {members : Members}
    (h : MoreMembers n more members) (rest : Bytes) : Stops (more ++ 125 :: rest) := by
  cases h with
  | nil hblank => exact stops_blank hblank (by rintro _ ⟨⟩; rfl)
  | cons hbefore =>
    rw [List.append_assoc]
    exact stops_blank hbefore (by rintro _ ⟨⟩; rfl)

/-! ## What a value starts with -/

/-- A byte a value or a key starts with: neither whitespace nor what closes a container. -/
def Starts (byte : Byte) : Prop :=
  ¬ (byte = 32 ∨ byte = 9 ∨ byte = 10 ∨ byte = 13) ∧ byte ≠ 93 ∧ byte ≠ 125

theorem starts_of_isDigit {byte : Byte} (h : Lib.isDigit byte = true) : Starts byte := by
  refine ⟨?_, ?_, ?_⟩
  · rintro (rfl | rfl | rfl | rfl) <;> exact absurd h (by decide)
  · rintro rfl
    exact absurd h (by decide)
  · rintro rfl
    exact absurd h (by decide)

theorem NumberText.exists_cons (number : NumberText) :
    ∃ byte rest, number.bytes = byte :: rest ∧ (byte = minusByte ∨ Lib.isDigit byte = true) := by
  obtain ⟨byte, rest, hwhole⟩ := List.exists_cons_of_ne_nil number.ne_nil
  have hdigit := number.allDigits_whole byte (hwhole ▸ List.mem_cons_self)
  unfold NumberText.bytes NumberText.sign
  rw [joinPoint_eq, hwhole]
  split
  · exact ⟨_, _, rfl, .inl rfl⟩
  · exact ⟨_, _, rfl, .inr hdigit⟩

theorem ValueText.exists_cons {tree : Tree} (h : ValueText n bytes tree) :
    ∃ byte rest, bytes = byte :: rest ∧ Starts byte := by
  cases h with
  | number read =>
    obtain ⟨byte, rest, hbytes, rfl | hdigit⟩ := read.exists_cons
    · exact ⟨_, _, hbytes, by unfold Starts; decide⟩
    · exact ⟨_, _, hbytes, starts_of_isDigit hdigit⟩
  | _ => exact ⟨_, _, rfl, by unfold Starts; decide⟩

/-! ## Steps on a text of the grammar -/

def Reads (read : Except JsonError (Token × Reader)) (tokens : List Token) : Prop :=
  ∃ token after rest, read = .ok (token, after) ∧ tokens = token :: rest ∧ Accepts after rest

theorem Reads.accepts {reader : Reader} {read : Except JsonError (Token × Reader)}
    {tokens : List Token} (h : Reads read tokens) (hnext : reader.next = read.map some) :
    Accepts reader tokens := by
  obtain ⟨token, after, rest, rfl, rfl, hrest⟩ := h
  exact .token hnext hrest

section Steps

variable {opened outer : List Bool} {rest blank bytes : Bytes} {tokens : List Token} {object : Bool}
  {due : Next} {byte : Byte}

theorem Starts.skip (h : Starts byte) (hblank : Blank blank) :
    Reader.skipWhitespace (blank ++ byte :: rest) = byte :: rest :=
  (Reader.skipWhitespace_blank hblank _).trans (Reader.skipWhitespace_cons h.1 _)

theorem skip_closing (hblank : Blank blank) :
    Reader.skipWhitespace (blank ++ closing object :: rest) = closing object :: rest := by
  refine (Reader.skipWhitespace_blank hblank _).trans (Reader.skipWhitespace_cons ?_ _)
  cases object <;> decide

theorem accepts_empty (object : Bool) (hblank : Blank blank)
    (h : Accepts ⟨rest, outer, .separator⟩ tokens) :
    Accepts ⟨blank ++ closing object :: rest, object :: outer, opening object⟩
      (ending object :: tokens) := by
  refine .token ?_ h
  rw [Reader.next_opening, skip_closing hblank, List.head?_cons, if_pos rfl]
  rfl

theorem accepts_closed (object : Bool) (hblank : Blank blank)
    (h : Accepts ⟨rest, outer, .separator⟩ tokens) :
    Accepts ⟨blank ++ closing object :: rest, object :: outer, .separator⟩
      (ending object :: tokens) := by
  refine .token ?_ h
  rw [Reader.next_separator, skip_closing hblank]
  cases object <;> rfl

theorem accepts_first (hblank : Blank blank) (hbytes : bytes = byte :: rest) (hstarts : Starts byte)
    (h : Reads (Reader.entry object ⟨bytes, object :: outer, opening object⟩) tokens) :
    Accepts ⟨blank ++ bytes, object :: outer, opening object⟩ tokens := by
  subst hbytes
  have hopen : ¬ some byte = some (closing object) := by
    cases object
    · exact fun heq => hstarts.2.1 (Option.some.inj heq)
    · exact fun heq => hstarts.2.2 (Option.some.inj heq)
  refine h.accepts ?_
  rw [Reader.next_opening, hstarts.skip hblank, List.head?_cons, if_neg hopen]

theorem accepts_comma (object : Bool) {before : Bytes} (hbefore : Blank before)
    (hblank : Blank blank)
    (hbytes : bytes = byte :: rest) (hstarts : Starts byte)
    (h : Reads (Reader.entry object ⟨bytes, object :: outer, .separator⟩) tokens) :
    Accepts ⟨before ++ 44 :: (blank ++ bytes), object :: outer, .separator⟩ tokens := by
  subst hbytes
  refine h.accepts ?_
  rw [Reader.next_separator, Reader.skipWhitespace_blank hbefore,
    Reader.skipWhitespace_cons (by decide)]
  have hskip : Reader.skipWhitespace (blank ++ byte :: rest) = byte :: rest := hstarts.skip hblank
  cases object
  · exact congrArg (fun bytes => (Reader.value ⟨bytes, false :: outer, .separator⟩).map some) hskip
  · exact congrArg (fun bytes => (Reader.key ⟨bytes, true :: outer, .separator⟩).map some) hskip

theorem reads_leaf {read : Except JsonError (Token × Reader)} {token : Token}
    (hread : read = .ok (token, ⟨rest, opened, .separator⟩))
    (h : Accepts ⟨rest, opened, .separator⟩ tokens) : Reads read ([token] ++ tokens) :=
  ⟨token, _, tokens, hread, rfl, h⟩

theorem Text.Written.read {text : Text} {value : Bytes} (h : text.Written value) (rest : Bytes) :
    Text.read (text.raw ++ quoteByte :: rest) = .ok (text, rest) :=
  Text.read_iff.mpr ⟨value, h, rfl⟩

theorem value_string {text : Text} {value : Bytes} (h : text.Written value) :
    Reader.value ⟨text.quoted ++ rest, opened, due⟩
      = .ok (.string text, ⟨rest, opened, .separator⟩) := by
  have hquoted : text.quoted ++ rest = quoteByte :: (text.raw ++ quoteByte :: rest) := by
    simp [Text.quoted]
  have hopen : ¬ (quoteByte = 123 ∨ quoteByte = 91) := by decide
  rw [hquoted, Reader.value]
  simp only [if_neg hopen, if_true, h.read]

theorem value_number (read : ReadNumber) (hrest : Stops rest) :
    Reader.value ⟨read.bytes ++ rest, opened, due⟩
      = .ok (.number read.bytes, ⟨rest, opened, .separator⟩) := by
  have hnumber := read.number_eq hrest
  obtain ⟨byte, tail, hbytes, hbyte⟩ := read.exists_cons
  have hne : ∀ other : Byte, ¬ (other = minusByte ∨ Lib.isDigit other = true) → byte ≠ other := by
    rintro other hother rfl
    exact hother hbyte
  rw [hbytes, List.cons_append] at hnumber ⊢
  rw [Reader.value]
  simp only [hne 123 (by decide), hne 91 (by decide), hne quoteByte (by decide),
    hne 116 (by decide), hne 102 (by decide), hne 110 (by decide), or_self, if_false, if_pos hbyte,
    hnumber]

theorem reads_open (object : Bool) (hroom : opened.length < nestingDepth)
    (h : Accepts ⟨rest, object :: opened, opening object⟩ tokens) :
    Reads (Reader.value ⟨(if object then 123 else 91) :: rest, opened, due⟩)
      ((if object then .beginObject else .beginArray) :: tokens) := by
  refine ⟨_, _, tokens, ?_, rfl, h⟩
  rw [Reader.value]
  cases object <;> exact if_neg (not_le.mpr hroom)

theorem key_written {key : Text} {name before : Bytes} (hkey : key.Written name)
    (hbefore : Blank before) : Reader.key ⟨key.quoted ++ (before ++ 58 :: rest), opened, due⟩
      = .ok (.key key, ⟨rest, opened, .value⟩) := by
  have hquoted : key.quoted ++ (before ++ 58 :: rest)
      = quoteByte :: (key.raw ++ quoteByte :: (before ++ 58 :: rest)) := by
    simp [Text.quoted]
  have hskip : Reader.skipWhitespace (before ++ 58 :: rest) = 58 :: rest :=
    (Reader.skipWhitespace_blank hbefore _).trans (Reader.skipWhitespace_cons (by decide) _)
  rw [hquoted, Reader.key]
  simp only [if_true, hkey.read, hskip]

end Steps

theorem MemberText.exists_cons {key : Text} {value : Tree}
    (h : MemberText n bytes key value) : ∃ byte rest, bytes = byte :: rest ∧ Starts byte := by
  cases h
  exact ⟨quoteByte, _, rfl, by unfold Starts; decide⟩

/-! ## Every text of the grammar is read -/

theorem room_of_le {opened : List Bool} (h : n + 1 ≤ levels opened) (object : Bool) :
    opened.length < nestingDepth ∧ n ≤ levels (object :: opened) := by
  unfold levels at h ⊢
  rw [List.length_cons]
  omega

/-- However it is written, the value is read, and what follows it then is. -/
def ReadsValue (tree : Tree) : Prop :=
  ∀ ⦃n : Nat⦄ ⦃bytes : Bytes⦄ ⦃opened : List Bool⦄
    (due : Next) ⦃rest : Bytes⦄ ⦃tokens : List Token⦄,
    ValueText n bytes tree → n ≤ levels opened → Stops rest →
      Accepts ⟨rest, opened, .separator⟩ tokens →
        Reads (Reader.value ⟨bytes ++ rest, opened, due⟩) (tree.tokens ++ tokens)

theorem MemberText.reads {key : Text} {value : Tree}
    (h : MemberText n bytes key value) (hvalue : ReadsValue value) {opened : List Bool} (due : Next)
    {tokens : List Token} (hroom : n ≤ levels opened) (hrest : Stops rest)
    (haccepts : Accepts ⟨rest, opened, .separator⟩ tokens) :
    Reads (Reader.key ⟨bytes ++ rest, opened, due⟩) (.key key :: (value.tokens ++ tokens)) := by
  cases h with
  | mk hkey hbefore hpast held =>
    have hheld := hvalue .value held hroom hrest haccepts
    obtain ⟨byte, tail, rfl, hstarts⟩ := held.exists_cons
    simp only [List.append_assoc, List.cons_append] at hheld ⊢
    refine ⟨_, _, _, key_written hkey hbefore, rfl, hheld.accepts ?_⟩
    exact congrArg (fun bytes => (Reader.value ⟨bytes, opened, .value⟩).map some)
      (hstarts.skip hpast)

mutual

theorem readsValue : ∀ tree : Tree, ReadsValue tree
  | .null => by
    intro n bytes opened due rest tokens h _ _ haccepts
    cases h
    exact reads_leaf rfl haccepts
  | .bool value => by
    intro n bytes opened due rest tokens h _ _ haccepts
    cases h <;> exact reads_leaf rfl haccepts
  | .number read => by
    intro n bytes opened due rest tokens h _ hrest haccepts
    cases h
    exact reads_leaf (value_number read hrest) haccepts
  | .string text whole => by
    intro n bytes opened due rest tokens h _ _ haccepts
    cases h with
    | string hwritten => exact reads_leaf (value_string hwritten) haccepts
  | .array .nil => by
    intro n bytes opened due rest tokens h hroom _ haccepts
    cases h with
    | emptyArray hblank =>
      simp only [Tree.tokens, Items.tokens, List.cons_append, List.append_assoc, List.nil_append]
      exact reads_open false (room_of_le hroom false).1 (accepts_empty false hblank haccepts)
  | .array (.cons item items) => by
    intro n bytes opened due rest tokens h hroom _ haccepts
    cases h with
    | array hblank first more =>
      obtain ⟨hopen, hroom⟩ := room_of_le hroom false
      obtain ⟨byte, tail, hbytes, hstarts⟩ := first.exists_cons
      have hfirst := readsValue item .firstItem first hroom (more.stops rest)
        (acceptsItems items more hroom haccepts)
      simp only [Tree.tokens, Items.tokens, List.cons_append, List.append_assoc, List.nil_append]
      exact reads_open false hopen (accepts_first hblank (by rw [hbytes]; rfl) hstarts hfirst)
  | .object .nil => by
    intro n bytes opened due rest tokens h hroom _ haccepts
    cases h with
    | emptyObject hblank =>
      simp only [Tree.tokens, Members.tokens, List.cons_append, List.append_assoc, List.nil_append]
      exact reads_open true (room_of_le hroom true).1 (accepts_empty true hblank haccepts)
  | .object (.cons key whole value members) => by
    intro n bytes opened due rest tokens h hroom _ haccepts
    cases h with
    | object hblank first more =>
      obtain ⟨hopen, hroom⟩ := room_of_le hroom true
      obtain ⟨byte, tail, hbytes, hstarts⟩ := first.exists_cons
      have hfirst := first.reads (readsValue value) .firstKey hroom (more.stops rest)
        (acceptsMembers members more hroom haccepts)
      simp only [Tree.tokens, Members.tokens, List.cons_append, List.append_assoc, List.nil_append]
      exact reads_open true hopen (accepts_first hblank (by rw [hbytes]; rfl) hstarts hfirst)

theorem acceptsItems : ∀ (items : Items) ⦃n : Nat⦄ ⦃more : Bytes⦄ ⦃outer : List Bool⦄ ⦃rest : Bytes⦄
    ⦃tokens : List Token⦄, MoreItems n more items → n ≤ levels (false :: outer) →
      Accepts ⟨rest, outer, .separator⟩ tokens →
        Accepts ⟨more ++ 93 :: rest, false :: outer, .separator⟩
          (items.tokens ++ .endArray :: tokens)
  | .nil => by
    intro n more outer rest tokens h _ haccepts
    cases h with
    | nil hblank => exact accepts_closed false hblank haccepts
  | .cons item items => by
    intro n more outer rest tokens h hroom haccepts
    cases h with
    | cons hbefore hpast next more =>
      obtain ⟨byte, tail, hbytes, hstarts⟩ := next.exists_cons
      have hnext := readsValue item .separator next hroom (more.stops rest)
        (acceptsItems items more hroom haccepts)
      simp only [List.append_assoc, List.cons_append, Items.tokens]
      exact accepts_comma false hbefore hpast (by rw [hbytes]; rfl) hstarts hnext

theorem acceptsMembers : ∀ (members : Members) ⦃n : Nat⦄ ⦃more : Bytes⦄ ⦃outer : List Bool⦄
    ⦃rest : Bytes⦄ ⦃tokens : List Token⦄, MoreMembers n more members → n ≤ levels (true :: outer) →
      Accepts ⟨rest, outer, .separator⟩ tokens →
        Accepts ⟨more ++ 125 :: rest, true :: outer, .separator⟩
          (members.tokens ++ .endObject :: tokens)
  | .nil => by
    intro n more outer rest tokens h _ haccepts
    cases h with
    | nil hblank => exact accepts_closed true hblank haccepts
  | .cons key whole value members => by
    intro n more outer rest tokens h hroom haccepts
    cases h with
    | cons hbefore hpast next more =>
      obtain ⟨byte, tail, hbytes, hstarts⟩ := next.exists_cons
      have hnext := next.reads (readsValue value) .separator hroom (more.stops rest)
        (acceptsMembers members more hroom haccepts)
      simp only [List.append_assoc, List.cons_append, Members.tokens]
      exact accepts_comma true hbefore hpast (by rw [hbytes]; rfl) hstarts hnext

end

theorem JsonText.accepts {text : Bytes} {tree : Tree} (h : JsonText text tree) :
    Accepts (Reader.new text) tree.tokens := by
  obtain ⟨before, bytes, past, hbefore, hpast, rfl, hvalue⟩ := h
  have hend : Accepts ⟨past, [], .separator⟩ [] := by
    have hskip : Reader.skipWhitespace past = [] := by
      rw [← List.append_nil past, Reader.skipWhitespace_blank hpast]
      rfl
    exact .done (if_pos hskip)
  have hstops : Stops past := by
    rw [← List.append_nil past]
    exact stops_blank hpast (by simp)
  have hreads := readsValue tree .value hvalue le_rfl hstops hend
  obtain ⟨byte, tail, rfl, hstarts⟩ := hvalue.exists_cons
  rw [List.append_nil] at hreads
  refine hreads.accepts ?_
  exact congrArg (fun bytes => (Reader.value ⟨bytes, [], .value⟩).map some) (hstarts.skip hbefore)

/-! ## Reading ends -/

/-- The bytes a token takes at least: a number's are those it is written with. -/
def Token.weight : Token → Nat
  | .number written => written.length
  | _ => 1

/-- The token is read from bytes of its own, which are then past. -/
def Spends (reader : Reader) (token : Token) (after : Reader) : Prop :=
  0 < token.weight ∧ after.rest.length + token.weight ≤ reader.rest.length

namespace Reader

variable {reader after : Reader} {token : Token}

theorem value_spends (h : reader.value = .ok (token, after)) : Spends reader token after := by
  cases value_ok h with
  | object room text => exact ⟨Nat.one_pos, by rw [text]; rfl⟩
  | array room text => exact ⟨Nat.one_pos, by rw [text]; rfl⟩
  | @leaf _ piece rest tree htokens hwritten text =>
    have hpiece : 0 < token.weight ∧ token.weight ≤ piece.length := by
      obtain ⟨byte, tail, hbytes, -⟩ := (hwritten 0).exists_cons
      have hpos : 0 < piece.length := by rw [hbytes]; exact Nat.succ_pos _
      cases hwritten 0 <;> cases htokens
      case number => exact ⟨hpos, le_rfl⟩
      all_goals exact ⟨Nat.one_pos, hpos⟩
    refine ⟨hpiece.1, ?_⟩
    rw [text, List.length_append]
    dsimp only
    omega

theorem key_spends (h : reader.key = .ok (token, after)) : Spends reader token after := by
  obtain ⟨text, name, before, rest, -, -, rfl, hrest, rfl⟩ := key_ok h
  refine ⟨Nat.one_pos, ?_⟩
  rw [hrest]
  simp only [Text.quoted, List.length_append, List.length_cons, Token.weight]
  omega

/-- What a step reads: a value, a key or a container's end, from what is left of the text. -/
inductive Steps (reader : Reader) : Token → Reader → Prop
  | value {token : Token} {at' after : Reader} (left : at'.rest.length ≤ reader.rest.length)
      (h : at'.value = .ok (token, after)) : Steps reader token after
  | key {token : Token} {at' after : Reader} (left : at'.rest.length ≤ reader.rest.length)
      (h : at'.key = .ok (token, after)) : Steps reader token after
  | close {after : Reader} (object : Bool) (left : after.rest.length < reader.rest.length) :
      Steps reader (ending object) after

theorem length_skipWhitespace_le (bytes : Bytes) : (skipWhitespace bytes).length ≤ bytes.length :=
  (List.dropWhile_suffix _).length_le

theorem length_tail_lt {bytes : Bytes} {byte : Byte} (h : bytes.head? = some byte) :
    bytes.tail.length < bytes.length := by
  cases bytes with
  | nil => cases h
  | cons => exact Nat.lt_succ_self _

theorem steps_of_separated {object : Bool} (h : reader.separated object = .ok (token, after)) :
    Steps reader token after := by
  have hpast : ∀ {byte : Byte}, reader.rest.head? = some byte →
      reader.pastComma.rest.length ≤ reader.rest.length := fun hhead =>
    (length_skipWhitespace_le _).trans (length_tail_lt hhead).le
  unfold separated at h
  split at h
  · next hhead => exact .key (hpast hhead) h
  · next hhead => exact .value (hpast hhead) h
  · rename_i hhead
    cases h
    exact .close true (length_tail_lt hhead)
  · rename_i hhead
    cases h
    exact .close false (length_tail_lt hhead)
  · cases h

theorem steps_of_next (h : reader.next = .ok (some (token, after))) : Steps reader token after := by
  have hskip := length_skipWhitespace_le reader.rest
  have hmap : ∀ {read : Except JsonError (Token × Reader)},
      read.map some = .ok (some (token, after)) → read = .ok (token, after) := by
    intro read hread
    cases read with
    | error error => cases hread
    | ok found =>
      cases hread
      rfl
  unfold next at h
  dsimp only at h
  split at h
  · exact .value hskip (hmap h)
  · split at h
    · split at h <;> cases h
    · cases steps_of_separated (hmap h) with
      | value left hvalue => exact .value (left.trans hskip) hvalue
      | key left hkey => exact .key (left.trans hskip) hkey
      | close object left => exact .close object (left.trans_le hskip)
  · split at h
    · rename_i hhead
      cases h
      exact .close false ((length_tail_lt hhead).trans_le hskip)
    · exact .value hskip (hmap h)
  · split at h
    · rename_i hhead
      cases h
      exact .close true ((length_tail_lt hhead).trans_le hskip)
    · exact .key hskip (hmap h)
  · exact .key hskip (hmap h)

theorem next_spends (h : reader.next = .ok (some (token, after))) : Spends reader token after := by
  cases steps_of_next h with
  | value left hvalue => exact ⟨(value_spends hvalue).1, (value_spends hvalue).2.trans left⟩
  | key left hkey => exact ⟨(key_spends hkey).1, (key_spends hkey).2.trans left⟩
  | close object left =>
    have hweight : (ending object).weight = 1 := by cases object <;> rfl
    rw [Spends, hweight]
    exact ⟨Nat.one_pos, left⟩

end Reader

variable {tokens : List Token} {reader : Reader}

theorem Accepts.bounded (h : Accepts reader tokens) :
    tokens.length ≤ reader.rest.length ∧ ∀ token ∈ tokens, token.weight ≤ reader.rest.length := by
  induction h with
  | done => exact ⟨Nat.zero_le _, fun _ h => absurd h List.not_mem_nil⟩
  | token hnext hrest ih =>
    obtain ⟨hpos, hspent⟩ := Reader.next_spends hnext
    refine ⟨?_, ?_⟩
    · rw [List.length_cons]
      omega
    · rintro token hmem
      rcases List.mem_cons.mp hmem with rfl | hmem
      · omega
      · have := ih.2 token hmem
        omega

/-- The reader reads `tokens`, and then fails. -/
inductive Refuses : Reader → List Token → JsonError → Prop
  | error {reader : Reader} {error : JsonError} (h : reader.next = .error error) :
      Refuses reader [] error
  | token {reader after : Reader} {token : Token} {tokens : List Token} {error : JsonError}
      (h : reader.next = .ok (some (token, after))) (rest : Refuses after tokens error) :
      Refuses reader (token :: tokens) error

theorem Accepts.unique {tokens' : List Token} (h : Accepts reader tokens)
    (h' : Accepts reader tokens') : tokens = tokens' := by
  induction h generalizing tokens' with
  | done hdone =>
    cases h' with
    | done => rfl
    | token htoken => cases hdone.symm.trans htoken
  | token htoken _ ih =>
    cases h' with
    | done hdone => cases hdone.symm.trans htoken
    | token htoken' hrest =>
      cases htoken.symm.trans htoken'
      rw [ih hrest]

theorem Accepts.not_refuses {tokens' : List Token} {error : JsonError} (h : Accepts reader tokens)
    (h' : Refuses reader tokens' error) : False := by
  induction h generalizing tokens' with
  | done hdone =>
    cases h' with
    | error herror => cases hdone.symm.trans herror
    | token htoken => cases hdone.symm.trans htoken
  | token htoken _ ih =>
    cases h' with
    | error herror => cases htoken.symm.trans herror
    | token htoken' hrest =>
      cases htoken.symm.trans htoken'
      exact ih hrest

theorem accepts_or_refuses (reader : Reader) :
    (∃ tokens, Accepts reader tokens) ∨ ∃ tokens error, Refuses reader tokens error := by
  cases hnext : reader.next with
  | error error => exact .inr ⟨_, error, .error hnext⟩
  | ok found =>
    cases found with
    | none => exact .inl ⟨_, .done hnext⟩
    | some found =>
      obtain ⟨token, after⟩ := found
      have hshorter : after.rest.length < reader.rest.length := by
        have := Reader.next_spends hnext
        unfold Spends at this
        omega
      rcases accepts_or_refuses after with ⟨tokens, haccepts⟩ | ⟨tokens, error, hrefuses⟩
      · exact .inl ⟨_, .token hnext haccepts⟩
      · exact .inr ⟨_, error, .token hnext hrefuses⟩
termination_by reader.rest.length

/-- The reader accepts the texts of the grammar and no others, each by the tokens of the one value
    it holds; and of every other text it ends with an error. -/
theorem reader_accepts_exactly_json (text : Bytes) : (∀ tokens, Accepts (Reader.new text) tokens
      ↔ ∃ tree : Tree, JsonText text tree ∧ tokens = tree.tokens) ∧
    (∀ tree tree' : Tree, JsonText text tree → JsonText text tree' → tree.tokens = tree'.tokens) ∧
    ((¬ ∃ tree : Tree, JsonText text tree)
      ↔ ∃ tokens error, Refuses (Reader.new text) tokens error) := by
  refine ⟨fun tokens => ⟨jsonText_of_accepts, ?_⟩, ?_, ?_, ?_⟩
  · rintro ⟨tree, htext, rfl⟩
    exact htext.accepts
  · intro tree tree' h h'
    exact h.accepts.unique h'.accepts
  · intro hnone
    rcases accepts_or_refuses (Reader.new text) with ⟨tokens, haccepts⟩ | hrefuses
    · obtain ⟨tree, htext, -⟩ := jsonText_of_accepts haccepts
      exact absurd ⟨tree, htext⟩ hnone
    · exact hrefuses
  · rintro ⟨tokens, error, hrefuses⟩ ⟨tree, htext⟩
    exact htext.accepts.not_refuses hrefuses

theorem reader_accepts_exactly_json_array :
    Accepts (Reader.new [32, 91, 110, 117, 108, 108, 9, 93, 10])
      [.beginArray, .null, .endArray] := by
  have hblank : ∀ byte : Byte, (byte = 32 ∨ byte = 9 ∨ byte = 10 ∨ byte = 13) → Blank [byte] :=
    fun byte h other hother => by rwa [List.mem_singleton.mp hother]
  have htext : ValueText nestingDepth [91, 110, 117, 108, 108, 9, 93] (.array (.cons .null .nil)) :=
    .array (fun _ h => absurd h List.not_mem_nil) .null (.nil (hblank 9 (by decide)))
  exact ((reader_accepts_exactly_json _).1 _).mpr
    ⟨_, ⟨[32], _, [10], hblank 32 (by decide), hblank 10 (by decide), rfl, htext⟩, rfl⟩

end Rdlt.Json
