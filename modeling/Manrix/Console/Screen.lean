import Mathlib.Data.BitVec
import Manrix.Libc.MemMove

/-!
# The text screen (`servers/console/console.c`)

`put_char` moves the cursor to the next line, scrolls the screen when it is behind the last line, and writes the
character.  The screen is compared with a page that has no last line (`Page`): it always shows the lines of the page
down to the lower of its first bottom line and the line of the cursor.
-/

namespace Manrix

open Function

/-- The memory from `vga` on, and `struct winattr`. -/
structure Screen where
  vga : Nat → BitVec 8
  currentX : Nat
  currentY : Nat
  maxX : Nat
  maxY : Nat
  attr : BitVec 32

def vnl : BitVec 8 := 0xd

def vcr : BitVec 8 := 0xa

/-- The loop of `scroll`, with the rounds that are left. -/
def scrollRows (xpix : Nat) : Nat → Nat → Nat → (Nat → BitVec 8) → Nat → BitVec 8
  | 0, _, _, vga => vga
  | n + 1, up, down, vga => scrollRows xpix n (up + xpix) (down + xpix) (memmove vga up down xpix)

def scroll (win : Screen) : Screen :=
  let xpix := win.maxX * 2
  let vga := memset win.vga 0 0 xpix
  let vga := scrollRows xpix win.maxY 0 xpix vga
  { win with
    vga := memset vga (win.maxX * 2 * (win.maxY - 1)) 0 xpix
    currentX := 0
    currentY := win.maxY - 1 }

def putCharArch (w : Screen) (ch : BitVec 8) : Screen :=
  let vga := update w.vga (w.currentY * w.maxX * 2 + w.currentX * 2) ch
  { w with vga := update vga (w.currentY * w.maxX * 2 + (w.currentX * 2 + 1)) (w.attr.setWidth 8) }

/-- `put_char` up to the test for a control character. -/
def placeCursor (ch : BitVec 8) (wattr : Screen) : Screen :=
  let wattr := if ch = vnl then { wattr with currentX := 0, currentY := wattr.currentY + 1 }
    else if ch = vcr then { wattr with currentY := wattr.currentY + 1, currentX := 0 }
    else wattr
  let wattr := if wattr.currentX ≥ wattr.maxX then { wattr with currentX := 0, currentY := wattr.currentY + 1 }
    else wattr
  if wattr.currentY ≥ wattr.maxY then scroll wattr else wattr

/-- `put_char`; the cursor of the hardware is not part of the screen. -/
def putChar (iscntrl : BitVec 8 → Bool) (ch : BitVec 8) (wattr : Screen) : Screen :=
  let wattr := placeCursor ch wattr
  if iscntrl ch then wattr
  else
    let wattr := putCharArch wattr ch
    { wattr with currentX := wattr.currentX + 1 }

def scrWrite (iscntrl : BitVec 8 → Bool) : List (BitVec 8) → Screen → Screen
  | [], wattr => wattr
  | ch :: string, wattr => if ch ≠ 0 then scrWrite iscntrl string (putChar iscntrl ch wattr) else wattr

/-- Lines without end, and the place of the cursor. -/
structure Page (β : Type*) where
  text : Nat → Nat → β
  x : Nat
  row : Nat

section Page

variable {β : Type*}

def Page.newline (p : Page β) : Page β := { p with x := 0, row := p.row + 1 }

/-- A full line is left when the next character comes. -/
def Page.wrap (width : Nat) (p : Page β) : Page β := if width ≤ p.x then p.newline else p

def Page.print (b : β) (p : Page β) : Page β :=
  { p with text := fun r c => if r = p.row ∧ c = p.x then b else p.text r c, x := p.x + 1 }

/-- A line break (`none`) or a character. -/
def Page.put (width : Nat) (p : Page β) : Option β → Page β
  | none => p.newline
  | some b => (p.wrap width).print b

def Page.write (width : Nat) (bs : List (Option β)) (p : Page β) : Page β := bs.foldl (Page.put width) p

/-- The first of the `height` lines that end at the lower of the line `height - 1` and the line of the cursor. -/
def Page.top (height : Nat) (p : Page β) : Nat := max (height - 1) p.row + 1 - height

end Page

structure Cell where
  ch : BitVec 8
  attr : BitVec 8
  deriving DecidableEq

def Cell.zero : Cell := ⟨0, 0⟩

def Screen.cell (s : Screen) (r c : Nat) : Cell :=
  ⟨s.vga (r * s.maxX * 2 + c * 2), s.vga (r * s.maxX * 2 + (c * 2 + 1))⟩

/-- The page that starts as the screen and goes on with zeros. -/
def Screen.page (s : Screen) : Page Cell where
  text r c := if r < s.maxY then s.cell r c else .zero
  x := s.currentX
  row := s.currentY

/-- What a byte of the string is for the page. -/
def Screen.symbol (s : Screen) (ch : BitVec 8) : Option Cell :=
  if ch = vnl ∨ ch = vcr then none else some ⟨ch, s.attr.setWidth 8⟩

/-- A line break or a printable byte. -/
def IsText (iscntrl : BitVec 8 → Bool) (ch : BitVec 8) : Prop :=
  ch ≠ 0 ∧ (iscntrl ch = true ↔ ch = vnl ∨ ch = vcr)

section

variable {s : Screen} {p : Page Cell} {iscntrl : BitVec 8 → Bool} {ch : BitVec 8} {r c : Nat}

private theorem scrollRows_apply (xpix n up : Nat) (vga : Nat → BitVec 8) (a : Nat) :
    scrollRows xpix n up (up + xpix) vga a = if up ≤ a ∧ a < up + n * xpix then vga (a + xpix) else vga a := by
  induction n generalizing up vga with
  | zero => rw [scrollRows, if_neg (by omega)]
  | succ n ih =>
    have hmul : (n + 1) * xpix = n * xpix + xpix := Nat.succ_mul n xpix
    rw [scrollRows, ih, memmove_apply, memmove_apply]
    by_cases ha : up + xpix ≤ a ∧ a < up + xpix + n * xpix
    · rw [if_pos ha, if_neg (by omega), if_pos (by omega)]
    · rw [if_neg ha]
      by_cases hb : up ≤ a ∧ a < up + xpix
      · rw [if_pos hb, if_pos (by omega)]
        congr 1
        omega
      · rw [if_neg hb, if_neg (by omega)]

private theorem scroll_vga (s : Screen) {a : Nat} (ha : a < s.maxY * (s.maxX * 2)) :
    (scroll s).vga a = if (s.maxY - 1) * (s.maxX * 2) ≤ a then 0 else s.vga (a + s.maxX * 2) := by
  have hpos : 0 < s.maxY := Nat.pos_of_ne_zero fun h => by simp [h] at ha
  have hmul : s.maxY * (s.maxX * 2) = (s.maxY - 1) * (s.maxX * 2) + s.maxX * 2 := by
    rw [← Nat.succ_mul, Nat.succ_eq_add_one, Nat.sub_add_cancel hpos]
  have hrows := scrollRows_apply (s.maxX * 2) s.maxY 0 (memset s.vga 0 0 (s.maxX * 2)) a
  rw [Nat.zero_add, if_pos (by omega), memset_apply, if_neg (by omega)] at hrows
  unfold scroll
  dsimp only
  rw [memset_apply, hrows, Nat.mul_comm (s.maxX * 2)]
  exact if_congr (by omega) rfl rfl

private theorem cell_lt {n m : Nat} (hr : r < n) (hc : c < m) : r * m * 2 + (c * 2 + 1) < n * (m * 2) := by
  have hle : (r + 1) * (m * 2) ≤ n * (m * 2) := Nat.mul_le_mul_right _ hr
  rw [Nat.succ_mul, ← Nat.mul_assoc] at hle
  omega

private theorem scroll_cell (s : Screen) (hr : r < s.maxY) (hc : c < s.maxX) :
    (scroll s).cell r c = if r + 1 = s.maxY then .zero else s.cell (r + 1) c := by
  have hlt := cell_lt hr hc
  have hcell : (scroll s).cell r c =
      ⟨(scroll s).vga (r * s.maxX * 2 + c * 2), (scroll s).vga (r * s.maxX * 2 + (c * 2 + 1))⟩ := rfl
  rw [hcell, scroll_vga s (by omega), scroll_vga s hlt]
  by_cases hlast : r + 1 = s.maxY
  · have hle : (s.maxY - 1) * (s.maxX * 2) ≤ r * s.maxX * 2 := by
      rw [← hlast, Nat.add_sub_cancel, Nat.mul_assoc]
    rw [if_pos (by omega), if_pos (by omega), if_pos hlast]
    rfl
  · have hr' : r < s.maxY - 1 := by omega
    have hlt' := cell_lt hr' hc
    have hnext : (r + 1) * s.maxX * 2 = r * s.maxX * 2 + s.maxX * 2 := by rw [Nat.succ_mul, Nat.add_mul]
    rw [if_neg (by omega), if_neg (by omega), if_neg hlast, Screen.cell, hnext, Nat.add_right_comm _ (c * 2),
      Nat.add_right_comm _ (c * 2 + 1)]

private theorem cell_injective {m y x : Nat} (hc : c < m) (hx : x < m) (h : r * m + c = y * m + x) : r = y ∧ c = x := by
  have hline : ∀ {r y c x : Nat}, c < m → r * m + c = y * m + x → y ≤ r := by
    intro r y c x hc h
    by_contra hlt
    have hle : (r + 1) * m ≤ y * m := Nat.mul_le_mul_right _ (Nat.lt_of_not_le hlt)
    rw [Nat.succ_mul] at hle
    omega
  obtain rfl : r = y := Nat.le_antisymm (hline hx h.symm) (hline hc h)
  exact ⟨rfl, by omega⟩

private theorem putCharArch_cell (s : Screen) (ch : BitVec 8) (hc : c < s.maxX) (hx : s.currentX < s.maxX) :
    (putCharArch s ch).cell r c = if r = s.currentY ∧ c = s.currentX then ⟨ch, s.attr.setWidth 8⟩ else s.cell r c := by
  unfold putCharArch Screen.cell
  simp only [update_apply]
  by_cases h : r = s.currentY ∧ c = s.currentX
  · obtain ⟨rfl, rfl⟩ := h
    rw [if_neg (by omega), if_pos rfl, if_pos rfl, if_pos ⟨rfl, rfl⟩]
  · have hne : r * s.maxX + c ≠ s.currentY * s.maxX + s.currentX := fun he => h (cell_injective hc hx he)
    rw [if_neg (by omega), if_neg (by omega), if_neg (by omega), if_neg (by omega), if_neg h]

/-- The screen shows the page, and below it the page is empty. -/
structure Shows (p : Page Cell) (s : Screen) : Prop where
  x_le : s.currentX ≤ s.maxX
  y_lt : s.currentY < s.maxY
  x : p.x = s.currentX
  row : p.row = p.top s.maxY + s.currentY
  cell : ∀ r < s.maxY, ∀ c < s.maxX, s.cell r c = p.text (p.top s.maxY + r) c
  zero : ∀ r c, p.top s.maxY + s.maxY ≤ r → p.text r c = .zero

theorem Screen.shows_page (hx : s.currentX ≤ s.maxX) (hy : s.currentY < s.maxY) : Shows s.page s where
  x_le := hx
  y_lt := hy
  x := rfl
  row := by
    unfold Page.top Screen.page
    dsimp only
    omega
  cell := by
    intro r hr c hc
    have htop : s.page.top s.maxY = 0 := by
      unfold Page.top Screen.page
      dsimp only
      omega
    rw [htop, Nat.zero_add]
    exact (if_pos hr).symm
  zero r c hr := if_neg (by omega)

theorem Shows.down (h : Shows p s) (hy : s.currentY + 1 < s.maxY) :
    Shows p.newline { s with currentX := 0, currentY := s.currentY + 1 } := by
  have hrow := h.row
  have htop : p.newline.top s.maxY = p.top s.maxY := by
    unfold Page.top Page.newline at *
    dsimp only
    omega
  refine ⟨Nat.zero_le _, hy, rfl, ?_, fun r hr c hc => ?_, fun r c hr => ?_⟩
  · show p.row + 1 = p.newline.top s.maxY + (s.currentY + 1)
    omega
  · show s.cell r c = p.text (p.newline.top s.maxY + r) c
    rw [htop]
    exact h.cell r hr c hc
  · change p.newline.top s.maxY + s.maxY ≤ r at hr
    exact h.zero r c (htop ▸ hr)

/-- The next line, when the cursor was on the last one. -/
theorem Shows.scrolled (h : Shows p s) (hy : s.currentY + 1 = s.maxY) :
    Shows p.newline (scroll { s with currentX := 0, currentY := s.currentY + 1 }) := by
  have hrow := h.row
  have htop : p.newline.top s.maxY = p.top s.maxY + 1 := by
    unfold Page.top Page.newline at *
    dsimp only
    omega
  refine ⟨Nat.zero_le _, ?_, rfl, ?_, fun r hr c hc => ?_, fun r c hr => ?_⟩
  · show s.maxY - 1 < s.maxY
    omega
  · show p.row + 1 = p.newline.top s.maxY + (s.maxY - 1)
    omega
  · refine (scroll_cell { s with currentX := 0, currentY := s.currentY + 1 } hr hc).trans ?_
    change r < s.maxY at hr
    show (if r + 1 = s.maxY then Cell.zero else s.cell (r + 1) c) = p.text (p.newline.top s.maxY + r) c
    rw [htop, Nat.add_right_comm, Nat.add_assoc]
    by_cases hlast : r + 1 = s.maxY
    · rw [if_pos hlast, h.zero _ _ (by omega)]
    · rw [if_neg hlast, h.cell _ (by omega) c hc]
  · change p.newline.top s.maxY + s.maxY ≤ r at hr
    exact h.zero r c (by omega)

/-- The screen as `put_char` makes it when the cursor has left its line. -/
def Screen.nextLine (s : Screen) : Screen :=
  let s := { s with currentX := 0, currentY := s.currentY + 1 }
  if s.currentY ≥ s.maxY then scroll s else s

theorem Shows.newline (h : Shows p s) : Shows p.newline s.nextLine := by
  have hy := h.y_lt
  unfold Screen.nextLine
  dsimp only
  split
  · exact h.scrolled (by omega)
  · exact h.down (by omega)

theorem Screen.nextLine_x (s : Screen) : s.nextLine.currentX = 0 := by
  unfold Screen.nextLine
  dsimp only
  split <;> rfl

theorem Screen.nextLine_dims (s : Screen) :
    s.nextLine.maxX = s.maxX ∧ s.nextLine.maxY = s.maxY ∧ s.nextLine.attr = s.attr := by
  unfold Screen.nextLine
  dsimp only
  split <;> exact ⟨rfl, rfl, rfl⟩

private theorem placeCursor_eq (h : Shows p s) (hx : 0 < s.maxX) (ch : BitVec 8) :
    placeCursor ch s = if (ch = vnl ∨ ch = vcr) ∨ s.maxX ≤ s.currentX then s.nextLine else s := by
  have hx₀ : ¬ (0 ≥ s.maxX) := Nat.not_le.2 hx
  have hy : ¬ (s.currentY ≥ s.maxY) := Nat.not_le.2 h.y_lt
  unfold placeCursor Screen.nextLine
  by_cases hn : ch = vnl
  · simp [hn, hx₀]
  · by_cases hc : ch = vcr
    · simp [hc, hx₀, vnl, vcr]
    · by_cases hf : s.maxX ≤ s.currentX
      · simp [hn, hc, hf]
      · simp [hn, hc, hf, hy]

theorem Shows.print (h : Shows p s) (hx : s.currentX < s.maxX) (ch : BitVec 8) : Shows (p.print ⟨ch, s.attr.setWidth 8⟩)
      { putCharArch s ch with currentX := (putCharArch s ch).currentX + 1 } := by
  have hrow := h.row
  have hy := h.y_lt
  refine ⟨hx, hy, congrArg (· + 1) h.x, hrow, fun r hr c hc => ?_, fun r c hr => ?_⟩
  · show (putCharArch s ch).cell r c =
      if p.top s.maxY + r = p.row ∧ c = p.x then ⟨ch, s.attr.setWidth 8⟩ else p.text (p.top s.maxY + r) c
    rw [putCharArch_cell s ch hc hx, h.cell r hr c hc, h.x]
    exact if_congr (by omega) rfl rfl
  · change p.top s.maxY + s.maxY ≤ r at hr
    show (if r = p.row ∧ c = p.x then _ else p.text r c) = Cell.zero
    rw [if_neg (by omega), h.zero r c hr]

theorem Shows.placeCursor (h : Shows p s) (hx : 0 < s.maxX) (ch : BitVec 8) :
    Shows (if ch = vnl ∨ ch = vcr then p.newline else p.wrap s.maxX) (placeCursor ch s) ∧
      (placeCursor ch s).currentX < s.maxX := by
  rw [placeCursor_eq h hx]
  by_cases hb : ch = vnl ∨ ch = vcr
  · rw [if_pos hb, if_pos (.inl hb), Screen.nextLine_x]
    exact ⟨h.newline, hx⟩
  · rw [if_neg hb, Page.wrap, h.x]
    by_cases hf : s.maxX ≤ s.currentX
    · rw [if_pos hf, if_pos (.inr hf), Screen.nextLine_x]
      exact ⟨h.newline, hx⟩
    · rw [if_neg hf, if_neg (not_or.2 ⟨hb, hf⟩)]
      exact ⟨h, Nat.lt_of_not_le hf⟩

private theorem placeCursor_dims (h : Shows p s) (hx : 0 < s.maxX) (ch : BitVec 8) :
    (Manrix.placeCursor ch s).maxX = s.maxX ∧ (Manrix.placeCursor ch s).maxY = s.maxY ∧
      (Manrix.placeCursor ch s).attr = s.attr := by
  rw [placeCursor_eq h hx]
  split
  · exact s.nextLine_dims
  · exact ⟨rfl, rfl, rfl⟩

private theorem putChar_dims (h : Shows p s) (hx : 0 < s.maxX) (ch : BitVec 8) :
    (putChar iscntrl ch s).maxX = s.maxX ∧ (putChar iscntrl ch s).maxY = s.maxY ∧
      (putChar iscntrl ch s).attr = s.attr := by
  have hd := placeCursor_dims h hx ch
  unfold putChar
  dsimp only
  split <;> exact hd

theorem Shows.putChar (h : Shows p s) (hx : 0 < s.maxX) (ht : IsText iscntrl ch) :
    Shows (p.put s.maxX (s.symbol ch)) (putChar iscntrl ch s) := by
  obtain ⟨hp, hlt⟩ := h.placeCursor hx ch
  obtain ⟨hmx, -, hattr⟩ := placeCursor_dims h hx ch
  unfold Manrix.putChar Screen.symbol
  dsimp only
  by_cases hb : ch = vnl ∨ ch = vcr
  · rw [if_pos (ht.2.2 hb), if_pos hb]
    rw [if_pos hb] at hp
    exact hp
  · rw [if_neg (fun h => hb (ht.2.1 h)), if_neg hb]
    rw [if_neg hb] at hp
    have hprint := hp.print (hmx ▸ hlt) ch
    rw [hattr] at hprint
    exact hprint

theorem Shows.scrWrite {string : List (BitVec 8)} (h : Shows p s) (hx : 0 < s.maxX)
    (ht : ∀ ch ∈ string, IsText iscntrl ch) : Shows (p.write s.maxX (string.map s.symbol)) (scrWrite iscntrl string s) ∧
      (scrWrite iscntrl string s).maxX = s.maxX ∧ (scrWrite iscntrl string s).maxY = s.maxY := by
  induction string generalizing p s with
  | nil => exact ⟨h, rfl, rfl⟩
  | cons ch string ih =>
    have htc := ht ch (List.mem_cons_self ..)
    obtain ⟨hmx, hmy, hattr⟩ := @putChar_dims s p iscntrl h hx ch
    have hsym : (Manrix.putChar iscntrl ch s).symbol = s.symbol := by
      unfold Screen.symbol
      rw [hattr]
    have hrest := ih (h.putChar hx htc) (hmx ▸ hx) fun ch' h' => ht ch' (List.mem_cons_of_mem _ h')
    rw [hmx, hmy, hsym] at hrest
    rw [Manrix.scrWrite, if_pos htc.1]
    exact hrest

/-- `scr_write` keeps the cursor on the screen, writes every character within its line, and leaves the screen with the
last lines of the page. -/
theorem scr_write_page {string : List (BitVec 8)} (hmax : 1 ≤ s.maxX) (hx : s.currentX ≤ s.maxX)
    (hy : s.currentY < s.maxY) (ht : ∀ ch ∈ string, IsText iscntrl ch) : (∀ pre, pre <+: string →
      (scrWrite iscntrl pre s).currentX ≤ s.maxX ∧ (scrWrite iscntrl pre s).currentY < s.maxY) ∧
    (∀ pre ch, pre ++ [ch] <+: string → iscntrl ch = false →
      (placeCursor ch (scrWrite iscntrl pre s)).currentX < s.maxX ∧
        (placeCursor ch (scrWrite iscntrl pre s)).currentY < s.maxY) ∧
    ∀ r < s.maxY, ∀ c < s.maxX, (scrWrite iscntrl string s).cell r c = (s.page.write s.maxX (string.map s.symbol)).text
        ((s.page.write s.maxX (string.map s.symbol)).top s.maxY + r) c := by
  have h₀ := Screen.shows_page hx hy
  have hpre : ∀ pre, pre <+: string → ∀ ch ∈ pre, IsText iscntrl ch := fun pre h ch hc => ht ch (h.subset hc)
  refine ⟨fun pre h => ?_, fun pre ch h _ => ?_, ?_⟩
  · obtain ⟨hs, hmx, hmy⟩ := h₀.scrWrite hmax (hpre pre h)
    exact ⟨hmx ▸ hs.x_le, hmy ▸ hs.y_lt⟩
  · obtain ⟨hs, hmx, hmy⟩ := h₀.scrWrite hmax (hpre pre ((List.prefix_append ..).trans h))
    have hpos : 0 < (scrWrite iscntrl pre s).maxX := hmx ▸ hmax
    obtain ⟨hp, hlt⟩ := hs.placeCursor hpos ch
    obtain ⟨-, hmy', -⟩ := placeCursor_dims hs hpos ch
    exact ⟨hmx ▸ hlt, (hmy'.trans hmy) ▸ hp.y_lt⟩
  · obtain ⟨hs, hmx, hmy⟩ := h₀.scrWrite hmax ht
    intro r hr c hc
    rw [← hmy] at hr ⊢
    exact hs.cell r hr c (hmx ▸ hc)

end

/-- A screen of two lines of two characters, with the cursor in its corner. -/
def smallScreen : Screen := ⟨fun _ => 0, 0, 0, 2, 2, 7⟩

/-- "ab", a line feed and "cde": the screen has the lines "cd" and "e". -/
theorem scr_write_page_small :
    (scrWrite (fun ch => ch < 0x20) [0x61, 0x62, 0x0a, 0x63, 0x64, 0x65] smallScreen).cell 0 0 = ⟨0x63, 7⟩ ∧
    (scrWrite (fun ch => ch < 0x20) [0x61, 0x62, 0x0a, 0x63, 0x64, 0x65] smallScreen).cell 1 0 = ⟨0x65, 7⟩ := by
  have ht : ∀ ch ∈ ([0x61, 0x62, 0x0a, 0x63, 0x64, 0x65] : List (BitVec 8)),
      IsText (fun ch => decide (ch < 0x20)) ch := by
    unfold IsText
    decide
  have h := (scr_write_page (s := smallScreen) (by decide) (by decide) (by decide) ht).2.2
  exact ⟨(h 0 (by decide) 0 (by decide)).trans (by decide), (h 1 (by decide) 0 (by decide)).trans (by decide)⟩

end Manrix
