/-
  Rdlt.Connector.Text

  Text a connector sent, as a host shows it: nothing in it is obeyed by a
  terminal or hidden from a reader, and it has a bounded length.
-/

import Mathlib

namespace Rdlt.Text

/-! ## Characters that deceive -/

def within (ranges : List (Nat × Nat)) (c : Char) : Bool :=
  ranges.any fun range => range.1 ≤ c.toNat && c.toNat ≤ range.2

def isControl (c : Char) : Bool := within [(0, 0x1f), (0x7f, 0x9f)] c

/-- The separators of lines and paragraphs, the spaces other than U+0020, and the letters that
    show as blank. -/
def blank (c : Char) : Bool :=
  within [(0xa0, 0xa0), (0x1680, 0x1680), (0x2000, 0x200a), (0x2028, 0x2028), (0x2029, 0x2029),
    (0x202f, 0x202f), (0x205f, 0x205f), (0x2800, 0x2800), (0x3000, 0x3000)] c

def format (c : Char) : Bool :=
  within [(0xad, 0xad), (0x600, 0x605), (0x61c, 0x61c), (0x6dd, 0x6dd), (0x70f, 0x70f),
    (0x890, 0x891), (0x8e2, 0x8e2), (0x180e, 0x180e), (0x200b, 0x200f), (0x202a, 0x202e),
    (0x2060, 0x206f), (0xfeff, 0xfeff), (0xfff9, 0xfffb), (0x110bd, 0x110bd), (0x110cd, 0x110cd),
    (0x13430, 0x1343f), (0x1bca0, 0x1bca3), (0x1d173, 0x1d17a)] c

/-- The characters a renderer ignores by default: fillers, variation selectors and tags. -/
def ignorable (c : Char) : Bool :=
  within [(0x34f, 0x34f), (0x115f, 0x1160), (0x17b4, 0x17b5), (0x180b, 0x180f), (0x3164, 0x3164),
    (0xfe00, 0xfe0f), (0xffa0, 0xffa0), (0xfff0, 0xfff8), (0xe0000, 0xe0fff)] c

/-- The characters of private use, and those that are no character. -/
def unmeaning (c : Char) : Bool :=
  within [(0xe000, 0xf8ff), (0xfdd0, 0xfdef), (0xf0000, 0x10ffff)] c || c.toNat &&& 0xfffe == 0xfffe

def deceives (c : Char) : Bool :=
  isControl c || blank c || format c || ignorable c || unmeaning c

/-! ## Escapes -/

/-- The hexadecimal digits of a number, none but its last a leading zero. -/
def hex (n : Nat) : List Char :=
  if n < 16 then [n.digitChar] else hex (n / 16) ++ [(n % 16).digitChar]

def escapeDefault (c : Char) : List Char :=
  if c = '\t' then ['\\', 't']
  else if c = '\r' then ['\\', 'r']
  else if c = '\n' then ['\\', 'n']
  else if c = '\'' ∨ c = '"' ∨ c = '\\' then ['\\', c]
  else if 0x20 ≤ c.toNat ∧ c.toNat ≤ 0x7e then [c]
  else ['\\', 'u', '\x7b'] ++ hex c.toNat ++ ['\x7d']

/-! ## Showing -/

/-- What ends a text that was cut at its limit. -/
def cutMark : List Char := [' ', '[', 'c', 'u', 't', ']']

def len (text : List Char) : Nat := (text.map Char.utf8Size).sum

/-- The first characters of a text that take `bytes`. -/
def truncate : Nat → List Char → List Char
  | _, [] => []
  | bytes, c :: text => if c.utf8Size ≤ bytes then c :: truncate (bytes - c.utf8Size) text else []

/-- Text being shown: what is kept of it, how much of that leaves room for the mark of a cut,
    whether its last character is a space, and whether it was cut. -/
structure Showing where
  text : List Char
  bytes : Nat
  fitsMark : Nat
  spaced : Bool
  cut : Bool

namespace Showing

/-- Keeps `piece` whole, or cuts the text. -/
def keep (s : Showing) (piece : List Char) : Showing :=
  if len s.text + len piece > s.bytes then { s with cut := true }
  else
    let text := s.text ++ piece
    { s with text, fitsMark := if len text + len cutMark ≤ s.bytes then len text else s.fitsMark }

def put (s : Showing) (c : Char) : Showing :=
  if c = ' ' then
    if s.spaced then s
    else
      let kept := s.keep [' ']
      { kept with spaced := !kept.cut }
  else
    { s with spaced := false }.keep (if deceives c then escapeDefault c else [c])

/-- Writes `piece`; a cut ends the writing. -/
def write (s : Showing) (piece : List Char) : Showing :=
  piece.foldl (fun s c => if s.cut then s else s.put c) s

end Showing

def start (bytes : Nat) : Showing :=
  { text := [], bytes, fitsMark := 0, spaced := false, cut := false }

/-- The text formatted by `writes` as a reader may be shown it, in `bytes` at most. -/
def shown (writes : List (List Char)) (bytes : Nat) : List Char :=
  let showing := writes.foldl Showing.write (start bytes)
  if showing.cut then (truncate showing.fitsMark showing.text).rdropWhile (· = ' ') ++ cutMark
  else showing.text

/-! ## Tidy text -/

/-- Text no character of which deceives, with no two spaces in a row. -/
structure Tidy (text : List Char) : Prop where
  honest : ∀ c ∈ text, deceives c = false
  spaced : text.IsChain fun left right => ¬ (left = ' ' ∧ right = ' ')

theorem Tidy.left {text rest : List Char} (h : Tidy (text ++ rest)) : Tidy text :=
  ⟨fun c hc => h.honest c (List.mem_append_left rest hc), (List.isChain_append.mp h.spaced).1⟩

theorem Tidy.append {left right : List Char} (hleft : Tidy left) (hright : Tidy right)
    (hapart : left.getLast? = some ' ' → right.head? ≠ some ' ') : Tidy (left ++ right) := by
  refine ⟨fun c hc => ?_, List.isChain_append.mpr ⟨hleft.spaced, hright.spaced, ?_⟩⟩
  · rcases List.mem_append.mp hc with hc | hc
    · exact hleft.honest c hc
    · exact hright.honest c hc
  · rintro a ha b hb ⟨rfl, rfl⟩
    exact hapart ha hb

/-- A character of ASCII that shows, and is no space. -/
def Graphic (c : Char) : Prop := 0x20 < c.toNat ∧ c.toNat < 0x7f

instance (c : Char) : Decidable (Graphic c) := inferInstanceAs (Decidable (_ ∧ _))

theorem Graphic.honest {c : Char} (h : Graphic c) : deceives c = false := by
  obtain ⟨hlow, hhigh⟩ := h
  have hand : c.toNat &&& 0xfffe ≠ 0xfffe := by
    have := Nat.and_le_left (n := c.toNat) (m := 0xfffe)
    omega
  simp [deceives, isControl, blank, format, ignorable, unmeaning, within, hand]
  omega

theorem graphic_hex (n : Nat) : ∀ c ∈ hex n, Graphic c := by
  have hdigit : ∀ digit < 16, Graphic digit.digitChar := by decide
  induction n using hex.induct with
  | case1 n h =>
    rw [hex, if_pos h]
    simpa using hdigit n h
  | case2 n h ih =>
    rw [hex, if_neg h]
    exact List.forall_mem_append.mpr ⟨ih, by simpa using hdigit _ (Nat.mod_lt n (by omega))⟩

theorem graphic_escapeDefault {c : Char} (hspace : c ≠ ' ') : ∀ e ∈ escapeDefault c, Graphic e := by
  unfold escapeDefault
  split_ifs with htab hreturn hline hquote hascii
  · simp [Graphic]
  · simp [Graphic]
  · simp [Graphic]
  · rcases hquote with rfl | rfl | rfl <;> simp [Graphic]
  · have hne : c.toNat ≠ 0x20 := fun h => hspace (Char.ext (UInt32.toNat_inj.mp h))
    simpa [Graphic] using ⟨by omega, by omega⟩
  · refine List.forall_mem_append.mpr ⟨List.forall_mem_append.mpr ⟨?_, graphic_hex _⟩, ?_⟩ <;>
      simp [Graphic]

/-- What a character other than a space is shown as. -/
structure Plain (piece : List Char) : Prop where
  honest : ∀ c ∈ piece, deceives c = false ∧ c ≠ ' '
  nonempty : piece ≠ []

theorem plain_shown {c : Char} (hspace : c ≠ ' ') :
    Plain (if deceives c then escapeDefault c else [c]) := by
  split
  · refine ⟨fun e he => ?_, by unfold escapeDefault; split_ifs <;> simp⟩
    have hgraphic := graphic_escapeDefault hspace e he
    exact ⟨hgraphic.honest, by rintro rfl; exact absurd hgraphic (by decide)⟩
  · rename_i hhonest
    exact ⟨by simpa using ⟨eq_false_of_ne_true hhonest, hspace⟩, by simp⟩

theorem Plain.tidy {piece : List Char} (h : Plain piece) : Tidy piece :=
  ⟨fun c hc => (h.honest c hc).1, List.Pairwise.isChain
    (List.pairwise_of_forall_mem_list fun left hleft _ _ heq => (h.honest left hleft).2 heq.1)⟩

theorem tidy_space : Tidy [' '] :=
  ⟨by simp [deceives, isControl, blank, format, ignorable, unmeaning, within], .singleton _⟩

/-! ## What showing keeps -/

theorem len_append (left right : List Char) : len (left ++ right) = len left + len right := by
  simp [len]

theorem truncate_append (kept rest : List Char) : truncate (len kept) (kept ++ rest) = kept := by
  induction kept with
  | nil =>
    cases rest with
    | nil => rfl
    | cons c rest => simp [truncate, len, c.utf8Size_pos.ne']
  | cons c kept ih =>
    have hlen : len (c :: kept) = c.utf8Size + len kept := len_append [c] kept
    rw [List.cons_append, truncate, hlen, if_pos (Nat.le_add_right ..), Nat.add_sub_cancel_left, ih]

namespace Showing

variable {s : Showing} {bytes : Nat} {c : Char} {piece : List Char}

/-- What is kept is tidy and within the bound, and up to some place leaves room for the mark. -/
structure Sound (s : Showing) (bytes : Nat) : Prop where
  tidy : Tidy s.text
  fits : len s.text ≤ bytes
  mark : ∃ kept rest, s.text = kept ++ rest ∧ len kept = s.fitsMark
  room : s.fitsMark + len cutMark ≤ bytes
  bound : s.bytes = bytes

/-- Whether the last character kept is a space is known until the text is cut. -/
def Spaced (s : Showing) : Prop := s.cut = false → (s.spaced = true ↔ s.text.getLast? = some ' ')

theorem keep_of_fits (h : len (s.text ++ piece) ≤ s.bytes) :
    s.keep piece = { s with
      text := s.text ++ piece
      fitsMark := if len (s.text ++ piece) + len cutMark ≤ s.bytes then len (s.text ++ piece)
        else s.fitsMark } := by
  rw [keep, if_neg (by rw [← len_append]; omega)]

theorem keep_of_not_fits (h : ¬ len (s.text ++ piece) ≤ s.bytes) :
    s.keep piece = { s with cut := true } := by
  rw [keep, if_pos (by rw [← len_append]; omega)]

/-- A tidy piece is kept whole, or the text is cut. -/
theorem Sound.keep (h : s.Sound bytes) (htidy : Tidy (s.text ++ piece)) :
    (s.keep piece).Sound bytes := by
  obtain rfl := h.bound
  by_cases hfits : len (s.text ++ piece) ≤ s.bytes
  · rw [keep_of_fits hfits]
    by_cases hroom : len (s.text ++ piece) + len cutMark ≤ s.bytes
    · rw [if_pos hroom]
      exact ⟨htidy, hfits, ⟨_, [], (List.append_nil _).symm, rfl⟩, hroom, rfl⟩
    · obtain ⟨kept, rest, htext, hkept⟩ := h.mark
      rw [if_neg hroom]
      exact ⟨htidy, hfits, ⟨kept, rest ++ piece, by simp [htext], hkept⟩, h.room, rfl⟩
  · rw [keep_of_not_fits hfits]
    exact ⟨h.tidy, h.fits, h.mark, h.room, rfl⟩

theorem text_keep (h : (s.keep piece).cut = false) : (s.keep piece).text = s.text ++ piece := by
  by_cases hfits : len (s.text ++ piece) ≤ s.bytes
  · rw [keep_of_fits hfits]
  · rw [keep_of_not_fits hfits] at h
    cases h

theorem spaced_keep : (s.keep piece).spaced = s.spaced := by
  unfold keep
  split <;> rfl

theorem Sound.put (h : s.Sound bytes) (hspaced : s.Spaced) (hcut : s.cut = false) (c : Char) :
    (s.put c).Sound bytes ∧ (s.put c).Spaced := by
  unfold Showing.put
  by_cases hspace : c = ' '
  · rw [if_pos hspace]
    by_cases hlast : s.spaced = true
    · rw [if_pos hlast]
      exact ⟨h, hspaced⟩
    · have hkept := h.keep (h.tidy.append tidy_space
        fun hended => absurd ((hspaced hcut).mpr hended) hlast)
      rw [if_neg hlast]
      refine ⟨⟨hkept.tidy, hkept.fits, hkept.mark, hkept.room, hkept.bound⟩, fun hkeeps => ?_⟩
      rw [text_keep hkeeps]
      simpa using hkeeps
  · rw [if_neg hspace]
    have hplain := plain_shown hspace
    refine ⟨Sound.keep (s := { s with spaced := false }) ⟨h.tidy, h.fits, h.mark, h.room, h.bound⟩
      (h.tidy.append hplain.tidy fun _ hhead => ?_), fun hkeeps => ?_⟩
    · exact (hplain.honest _ (List.mem_of_mem_head? hhead)).2 rfl
    · rw [spaced_keep, text_keep hkeeps, List.getLast?_append_of_ne_nil _ hplain.nonempty]
      exact ⟨nofun, fun hended => absurd rfl (hplain.honest _ (List.mem_of_getLast? hended)).2⟩

theorem Sound.write (h : s.Sound bytes) (hspaced : s.Spaced) (text : List Char) :
    (s.write text).Sound bytes := by
  induction text generalizing s with
  | nil => exact h
  | cons c text ih =>
    rw [Showing.write, List.foldl_cons]
    by_cases hcut : s.cut = true
    · rw [if_pos hcut]
      exact ih h hspaced
    · rw [if_neg hcut]
      have hput := h.put hspaced (eq_false_of_ne_true hcut) c
      exact ih hput.1 hput.2

theorem put_tidy (hspaced : s.Spaced) (hcut : s.cut = false) (htidy : Tidy (s.text ++ [c]))
    (hfits : len (s.text ++ [c]) ≤ s.bytes) :
    (s.put c).text = s.text ++ [c] ∧ (s.put c).cut = false := by
  unfold Showing.put
  by_cases hspace : c = ' '
  · have hlast : ¬ s.spaced = true := by
      rw [hspaced hcut]
      intro hended
      exact (List.isChain_append.mp htidy.spaced).2.2 _ hended _ rfl ⟨rfl, hspace⟩
    rw [hspace] at hfits
    rw [if_pos hspace, if_neg hlast, keep_of_fits hfits, hspace]
    exact ⟨rfl, hcut⟩
  · have hhonest : deceives c = false := htidy.honest c (by simp)
    rw [if_neg hspace, hhonest, if_neg Bool.false_ne_true,
      keep_of_fits (s := { s with spaced := false }) hfits]
    exact ⟨rfl, hcut⟩

/-- Tidy text within its bound is kept as it is. -/
theorem write_tidy (h : s.Sound bytes) (hspaced : s.Spaced) (hcut : s.cut = false)
    (text : List Char)
    (htidy : Tidy (s.text ++ text)) (hfits : len (s.text ++ text) ≤ bytes) :
    (s.write text).text = s.text ++ text ∧ (s.write text).cut = false := by
  induction text generalizing s with
  | nil => exact ⟨(List.append_nil _).symm, hcut⟩
  | cons c text ih =>
    rw [List.append_cons] at htidy hfits ⊢
    have hput := h.put hspaced hcut c
    obtain ⟨htext, hnext⟩ := put_tidy hspaced hcut htidy.left
      (h.bound ▸ Nat.le_of_add_right_le (len_append .. ▸ hfits))
    rw [write, List.foldl_cons, if_neg (by simp [hcut])]
    rw [← htext] at htidy hfits ⊢
    exact ih hput.1 hput.2 hnext htidy hfits

end Showing

/-! ## What is shown -/

theorem sound_start {bytes : Nat} (h : len cutMark ≤ bytes) : (start bytes).Sound bytes :=
  ⟨⟨nofun, .nil⟩, Nat.zero_le _, ⟨[], [], rfl, rfl⟩, by rwa [start, Nat.zero_add], rfl⟩

theorem spaced_start (bytes : Nat) : (start bytes).Spaced := fun _ => by simp [start]

theorem foldl_write (writes : List (List Char)) (s : Showing) :
    writes.foldl Showing.write s = s.write writes.flatten := by
  rw [Showing.write, List.foldl_flatten]
  rfl

theorem tidy_cutMark : Tidy cutMark :=
  ⟨by simp [cutMark, deceives, isControl, blank, format, ignorable, unmeaning,
    within], by simp [cutMark]⟩

/-- What is left before the mark of a cut, and the mark. -/
theorem Tidy.cut {kept : List Char} (h : Tidy kept) :
    Tidy (kept.rdropWhile (· = ' ') ++ cutMark) ∧ len (kept.rdropWhile (· = ' ')) ≤ len kept := by
  have hsplit : kept.rdropWhile (· = ' ') ++ kept.rtakeWhile (· = ' ') = kept :=
    List.rdropWhile_append_rtakeWhile
  constructor
  · refine Tidy.append (hsplit ▸ h).left tidy_cutMark fun hended => ?_
    have hne := List.ne_nil_of_mem (List.mem_of_getLast? hended)
    rw [List.getLast?_eq_some_getLast hne, Option.some.injEq] at hended
    exact absurd (decide_eq_true hended) (List.rdropWhile_last_not _ _ hne)
  · have hlen := congrArg len hsplit
    rw [len_append] at hlen
    omega

theorem shown_tidy (writes : List (List Char)) {bytes : Nat} (h : len cutMark ≤ bytes) :
    Tidy (shown writes bytes) ∧ len (shown writes bytes) ≤ bytes := by
  have hsound := (sound_start h).write (spaced_start bytes) writes.flatten
  rw [shown, foldl_write]
  split
  · obtain ⟨kept, rest, htext, hlen⟩ := hsound.mark
    rw [htext, ← hlen, truncate_append, len_append]
    have hcut := Tidy.cut (htext ▸ hsound.tidy).left
    exact ⟨hcut.1, (Nat.add_le_add_right (hcut.2.trans_eq hlen) _).trans hsound.room⟩
  · exact ⟨hsound.tidy, hsound.fits⟩

/-- Shown text is within its bound, holds no character that deceives and no two spaces in a row,
    and showing it again, at the same or a larger bound, gives it unchanged. -/
theorem shown_text_is_safe (writes : List (List Char)) (bytes : Nat) (h : len cutMark ≤ bytes) :
    len (shown writes bytes) ≤ bytes ∧ (∀ c ∈ shown writes bytes, deceives c = false) ∧
      (shown writes bytes).IsChain (fun left right => ¬ (left = ' ' ∧ right = ' ')) ∧
      ∀ again larger, again.flatten = shown writes bytes → bytes ≤ larger →
        shown again larger = shown writes bytes := by
  obtain ⟨htidy, hfits⟩ := shown_tidy writes h
  refine ⟨hfits, htidy.honest, htidy.spaced, fun again larger hagain hlarger => ?_⟩
  have hkeeps := Showing.write_tidy (sound_start (h.trans hlarger)) (spaced_start larger) rfl
    again.flatten (hagain ▸ htidy) (hagain ▸ hfits.trans hlarger)
  rw [shown, foldl_write, if_neg (by simp [hkeeps.2]), hkeeps.1, ← hagain]
  rfl

theorem shown_text_is_safe_twelve : len cutMark ≤ 12 ∧
    shown [['a', ' '], [' ', '\t']] 12 = ['a', ' ', '\\', 't'] ∧
      len (shown [['a', ' '], [' ', '\t']] 12) ≤ 12 :=
  ⟨by decide, by decide +kernel, (shown_text_is_safe _ 12 (by decide)).1⟩

end Rdlt.Text
