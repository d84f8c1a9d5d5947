import I386Kernel.Lib.ForwardCopy
import I386Kernel.Console.Fb
import Mathlib.Tactic.SplitIfs

/-!
# The console as a window on a terminal

A terminal of unbounded height that never scrolls, and the proof that what the console shows is the 25 rows of it that end at the lowest row reached.
-/

namespace I386Kernel

/-! ## The terminal -/

structure Terminal where
  /-- Character and attribute by row and column. -/
  cells : Nat → Nat → UInt8 × UInt8
  cx : Nat
  cy : Nat
  /-- The lowest row reached since the start or the last form feed. -/
  lowest : Nat

def blank : UInt8 × UInt8 := (ascii ' ', grayOnBlack)

namespace Terminal

variable (t : Terminal)

def newline : Terminal := { t with cx := 0, cy := t.cy + 1, lowest := max t.lowest (t.cy + 1) }

/-- The cursor has come to column `x`. -/
def advance (x : Nat) : Terminal := if x < 80 then { t with cx := x } else t.newline

def put (ch : UInt8) : Terminal :=
  if ch = ascii '\r' then { t with cx := 0 }
  else if ch = ascii '\n' then t.newline
  else if ch = 0x0c then ⟨fun _ _ => blank, 0, 0, 0⟩
  else if ch = 0x08 then { t with cx := t.cx - 1 }
  else if ch = ascii '\t' then t.advance (8 * (t.cx / 8 + 1))
  else { t with cells := Function.update t.cells t.cy (Function.update (t.cells t.cy) t.cx (ch, grayOnBlack)) }.advance
    (t.cx + 1)

/-- The first of the rows in the window. -/
def top : Nat := t.lowest + 1 - 25

end Terminal

namespace Console

/-- What a cell of the screen shows. -/
def shows (s : Console) (y x : Nat) : UInt8 × UInt8 := (s.video.byte (s.cell y x 0), s.video.byte (s.cell y x 1))

/-- The screen, with blank rows below it. -/
def terminal (s : Console) : Terminal where
  cells := fun y x => if y < 25 then s.shows y x else blank
  cx := s.cx
  cy := s.cy
  lowest := s.cy

/-- An address of the 25 by 80 buffer. -/
def InBuffer (s : Console) (a : Nat) : Prop := s.fb ≤ a ∧ a < s.fb + 25 * 80 * 2

end Console

/-! ## Stores -/

namespace Video

variable (v : Video)

@[simp] theorem byte_store (a b : Nat) (c : UInt8) : (v.store a c).byte b = if b = a then c else v.byte b :=
  Function.update_apply ..

@[simp] theorem written_store (a : Nat) (c : UInt8) : (v.store a c).written = a :: v.written := rfl

theorem byte_memcpy_eq (dest src size : Nat) :
    (v.memcpy dest src size).byte = copyUp v.byte (fun i => dest + i) (fun i => src + i) size := by
  induction size generalizing v dest src with
  | zero => rfl
  | succ size ih =>
      rw [copyUp.first, memcpy, ih]
      simp only [Nat.add_assoc, Nat.add_comm 1, Nat.add_zero, store]

/-- A copy to lower addresses reads every byte before it is overwritten. -/
theorem byte_memcpy {dest src : Nat} (h : dest < src) (size a : Nat) : (v.memcpy dest src size).byte a =
    if dest ≤ a ∧ a < dest + size then v.byte (a - dest + src) else v.byte a := by
  rw [byte_memcpy_eq]
  split
  · rename_i hin
    obtain ⟨i, rfl⟩ : ∃ i, a = dest + i := ⟨a - dest, by omega⟩
    have hinj : Set.InjOn (fun i => dest + i) (Set.Iio size) := fun i _ j _ heq => Nat.add_left_cancel heq
    rw [copyUp.intact hinj (i := i) (by omega) fun j hj => by omega]
    congr 1
    omega
  · rename_i hout
    exact copyUp.frame fun i hi heq => hout (by omega)

theorem written_memcpy (dest src size : Nat) {a : Nat} (ha : a ∈ (v.memcpy dest src size).written) :
    a ∈ v.written ∨ (dest ≤ a ∧ a < dest + size) := by
  induction size generalizing v dest src with
  | zero => exact Or.inl ha
  | succ size ih =>
      rw [memcpy] at ha
      obtain hmem | hrange := ih _ _ _ ha
      · obtain rfl | hmem := List.mem_cons.mp hmem
        · exact Or.inr ⟨Nat.le_refl _, by omega⟩
        · exact Or.inl hmem
      · exact Or.inr ⟨by omega, by omega⟩

end Video

namespace Console

/-- The bytes of a cleared row alternate. -/
theorem byte_clearCells (v : Video) (row x n a : Nat) : (clearCells v row x n).byte a =
    if row + x * 2 ≤ a ∧ a < row + (x + n) * 2 then
      if (a - row) % 2 = 0 then ascii ' ' else grayOnBlack
    else v.byte a := by
  induction n generalizing v x with
  | zero =>
      rw [clearCells, if_neg (by omega)]
  | succ n ih =>
      rw [clearCells, ih]
      simp only [Video.byte_store]
      split_ifs <;> first | omega | rfl

theorem written_clearCells (v : Video) (row x n : Nat) {a : Nat} (ha : a ∈ (clearCells v row x n).written) :
    a ∈ v.written ∨ (row + x * 2 ≤ a ∧ a < row + (x + n) * 2) := by
  induction n generalizing v x with
  | zero => exact Or.inl ha
  | succ n ih =>
      rw [clearCells] at ha
      obtain hmem | hrange := ih _ _ ha
      · simp only [Video.written_store, List.mem_cons] at hmem
        obtain rfl | rfl | hmem := hmem
        · exact Or.inr ⟨by omega, by omega⟩
        · exact Or.inr ⟨by omega, by omega⟩
        · exact Or.inl hmem
      · exact Or.inr ⟨by omega, by omega⟩

/-! ## The window -/

/-- Everything but the column: the rows of the screen are those of the window, the cursor is on the lowest row reached, and there is nothing below the window yet. -/
structure Window (s₀ s : Console) (t : Terminal) : Prop where
  fb : s.fb = s₀.fb
  row : s.cy < 25
  cy : t.cy = t.top + s.cy
  lowest : t.lowest = t.cy
  cells : ∀ y < 25, ∀ x < 80, s.shows y x = t.cells (t.top + y) x
  below : ∀ y x, t.top + 25 ≤ y → t.cells y x = blank
  written : ∀ a ∈ s.video.written, a ∈ s₀.video.written ∨ s₀.InBuffer a

structure Refines (s₀ s : Console) (t : Terminal) : Prop extends Window s₀ s t where
  cx : s.cx = t.cx
  column : s.cx < 80
  inited : s.inited = true

variable {s₀ s : Console} {t : Terminal}

/-- The bytes of a cell in a row that is cleared, or not. -/
theorem shows_clearRow (s : Console) (y₀ y : Nat) {x : Nat} (hx : x < 80) :
    (s.clearRow y₀).shows y x = if y = y₀ then blank else s.shows y x := by
  have hchar : (s.clearRow y₀).video.byte (s.cell y x 0) = if y = y₀ then ascii ' ' else s.video.byte (s.cell y x 0) := by
    simp only [clearRow, byte_clearCells, cell, colCnt]
    split_ifs <;> first | omega | rfl
  have hattr : (s.clearRow y₀).video.byte (s.cell y x 1) = if y = y₀ then grayOnBlack else s.video.byte (s.cell y x 1) := by
    simp only [clearRow, byte_clearCells, cell, colCnt]
    split_ifs <;> first | omega | rfl
  change ((s.clearRow y₀).video.byte (s.cell y x 0), (s.clearRow y₀).video.byte (s.cell y x 1)) = _
  rw [hchar, hattr]
  split <;> rfl

theorem written_clearRow (s : Console) {y₀ : Nat} (hy : y₀ < 25) {a : Nat} (ha : a ∈ (s.clearRow y₀).video.written) :
    a ∈ s.video.written ∨ s.InBuffer a := by
  refine (written_clearCells s.video _ 0 colCnt ha).imp_right ?_
  simp only [cell, colCnt, InBuffer]
  omega

/-- The buffer after the `memmove` of `newline`. -/
def scrolled (s : Console) : Video := s.video.memcpy (s.cell 0 0 0) (s.cell 1 0 0) (colCnt * 2 * (rowCnt - 1))

theorem newline_eq (s : Console) : s.newline =
    if 25 ≤ s.cy + 1 then ({ s with cx := 0, cy := 24, video := s.scrolled } : Console).clearRow 24
    else { s with cx := 0, cy := s.cy + 1 } := by
  rw [newline, scrolled]
  rfl

/-- The rows move up by one; the last one stays. -/
theorem byte_scrolled (s : Console) {y x k : Nat} (hy : y < 24) (hx : x < 80) (hk : k < 2) :
    s.scrolled.byte (s.cell y x k) = s.video.byte (s.cell (y + 1) x k) := by
  have hlt : s.cell 0 0 0 < s.cell 1 0 0 := by
    simp only [cell, colCnt]
    omega
  rw [scrolled, Video.byte_memcpy _ hlt, if_pos]
  · congr 1
    simp only [cell, colCnt]
    omega
  · simp only [cell, colCnt, rowCnt]
    omega

theorem written_scrolled (s : Console) {a : Nat} (ha : a ∈ s.scrolled.written) : a ∈ s.video.written ∨ s.InBuffer a := by
  rw [scrolled] at ha
  refine (Video.written_memcpy _ _ _ _ ha).imp_right ?_
  simp only [cell, colCnt, rowCnt, InBuffer]
  omega

namespace Window

private theorem top_newline (t : Terminal) (h : t.lowest = t.cy) :
    t.newline.top = t.cy + 1 - 24 ∧ t.newline.lowest = t.cy + 1 ∧ t.top = t.cy - 24 := by
  have hmax : max t.lowest (t.cy + 1) = t.cy + 1 := by omega
  refine ⟨?_, hmax, ?_⟩
  · change max t.lowest (t.cy + 1) + 1 - 25 = _
    omega
  · rw [Terminal.top, h]
    omega

theorem inBuffer_iff (h : Window s₀ s t) (a : Nat) : s.InBuffer a ↔ s₀.InBuffer a := by
  rw [InBuffer, InBuffer, h.fb]

/-- The cursor goes to the start of the next row. -/
theorem newline (h : Window s₀ s t) (hinit : s.inited = true) : Refines s₀ s.newline t.newline := by
  obtain ⟨htop', hlow', htop⟩ := top_newline t h.lowest
  have hcy := h.cy
  have hrow := h.row
  have hcells : t.newline.cells = t.cells := rfl
  have hcy' : t.newline.cy = t.cy + 1 := rfl
  have hbelow : ∀ y x, t.newline.top + 25 ≤ y → t.newline.cells y x = blank := by
    intro y x hy
    exact h.below y x (by omega)
  rw [newline_eq]
  by_cases hlast : 25 ≤ s.cy + 1
  · -- the window moves on by one row, which is blank
    obtain ⟨v, hv, hbyte, hwritten⟩ : ∃ v, s.scrolled = v ∧
        (∀ y x k, y < 24 → x < 80 → k < 2 → v.byte (s.cell y x k) = s.video.byte (s.cell (y + 1) x k)) ∧
        ∀ a ∈ v.written, a ∈ s.video.written ∨ s.InBuffer a :=
      ⟨_, rfl, fun y x k => s.byte_scrolled, fun a => s.written_scrolled⟩
    rw [if_pos hlast, hv]
    refine ⟨⟨h.fb, by change 24 < 25; decide, ?_, by omega, fun y hy x hx => ?_, hbelow, fun a ha => ?_⟩, rfl,
      by change 0 < 80; decide, hinit⟩
    · change t.cy + 1 = t.newline.top + 24
      omega
    · rw [shows_clearRow _ 24 y hx, hcells, htop']
      by_cases hy24 : y = 24
      · rw [if_pos hy24]
        exact (h.below _ x (by omega)).symm
      · rw [if_neg hy24, show t.cy + 1 - 24 + y = t.top + (y + 1) by omega, ← h.cells (y + 1) (by omega) x hx]
        exact congrArg₂ Prod.mk (hbyte y x 0 (by omega) hx (by decide)) (hbyte y x 1 (by omega) hx (by decide))
    · obtain hmem | hbuf := written_clearRow _ (by decide) ha
      · obtain hmem | hbuf := hwritten a hmem
        · exact h.written a hmem
        · exact Or.inr ((h.inBuffer_iff a).mp hbuf)
      · exact Or.inr ((h.inBuffer_iff a).mp hbuf)
  · rw [if_neg hlast]
    refine ⟨⟨h.fb, by change s.cy + 1 < 25; omega, ?_, by omega, fun y hy x hx => ?_, hbelow, h.written⟩, rfl,
      by change 0 < 80; decide, hinit⟩
    · change t.cy + 1 = t.newline.top + (s.cy + 1)
      omega
    · rw [hcells, htop', show t.cy + 1 - 24 + y = t.top + y by omega]
      exact h.cells y hy x hx

/-- A character in the cell under the cursor. -/
theorem write (h : Window s₀ s t) (hx : s.cx < 80) (hcx : s.cx = t.cx) (ch : UInt8) :
    Window s₀ (({ s with video := (s.video.store (s.cell s.cy s.cx 0) ch).store (s.cell s.cy s.cx 1) grayOnBlack } : Console))
      { t with cells := Function.update t.cells t.cy (Function.update (t.cells t.cy) t.cx (ch, grayOnBlack)) } := by
  have hcy := h.cy
  have hrow := h.row
  refine ⟨h.fb, h.row, h.cy, h.lowest, fun y hy x hx' => ?_, fun y x hy => ?_, fun a ha => ?_⟩
  · have hbyte : ∀ k < 2, ((s.video.store (s.cell s.cy s.cx 0) ch).store (s.cell s.cy s.cx 1) grayOnBlack).byte
        (s.cell y x k) = if y = s.cy ∧ x = s.cx then (if k = 0 then ch else grayOnBlack) else s.video.byte (s.cell y x k) := by
      intro k hk
      simp only [Video.byte_store, cell, colCnt]
      split_ifs <;> first | omega | rfl
    refine (congrArg₂ Prod.mk (hbyte 0 (by decide)) (hbyte 1 (by decide))).trans ?_
    by_cases hrow' : y = s.cy
    · subst hrow'
      change _ = Function.update t.cells t.cy _ (t.top + s.cy) x
      rw [← hcy, Function.update_self, ← hcx]
      by_cases hcol : x = s.cx
      · subst hcol
        rw [Function.update_self, if_pos (And.intro rfl rfl), if_pos rfl, if_pos (And.intro rfl rfl), if_neg (by decide)]
      · rw [Function.update_of_ne hcol, if_neg (fun h => hcol h.2), if_neg (fun h => hcol h.2), hcy]
        exact h.cells s.cy hy x hx'
    · change _ = Function.update t.cells t.cy _ (t.top + y) x
      rw [Function.update_of_ne (by omega), if_neg (fun h => hrow' h.1), if_neg (fun h => hrow' h.1)]
      exact h.cells y hy x hx'
  · change Function.update t.cells t.cy _ y x = _
    rw [Function.update_of_ne]
    · exact h.below y x hy
    · change t.top + 25 ≤ y at hy
      omega
  · simp only [Video.written_store, List.mem_cons] at ha
    have hbuf : ∀ k < 2, s₀.InBuffer (s.cell s.cy s.cx k) := by
      intro k hk
      rw [← h.inBuffer_iff, InBuffer, cell, colCnt]
      omega
    obtain rfl | rfl | ha := ha
    · exact Or.inr (hbuf 1 (by decide))
    · exact Or.inr (hbuf 0 (by decide))
    · exact h.written a ha

/-- The column the cursor has come to, or the next row. -/
theorem advance (h : Window s₀ s t) (hinit : s.inited = true) (x : Nat) :
    Refines s₀ (if x ≥ colCnt then ({ s with cx := x } : Console).newline else { s with cx := x }) (t.advance x) := by
  rw [Terminal.advance]
  by_cases hx : x < 80
  · rw [if_neg (show ¬ x ≥ colCnt from Nat.not_le.mpr hx), if_pos hx]
    exact ⟨⟨h.fb, h.row, h.cy, h.lowest, h.cells, h.below, h.written⟩, rfl, hx, hinit⟩
  · rw [if_pos (show x ≥ colCnt from Nat.not_lt.mp hx), if_neg hx]
    have hcol : Window s₀ ({ s with cx := x } : Console) t := ⟨h.fb, h.row, h.cy, h.lowest, h.cells, h.below, h.written⟩
    exact hcol.newline hinit

end Window

/-- Rows from `y` on are cleared. -/
theorem clearRows_spec (s : Console) (y n : Nat) (hn : y + n ≤ 25) :
    ∃ v, s.clearRows y n = { s with video := v } ∧
      (∀ y' x, x < 80 → ({ s with video := v } : Console).shows y' x = if y ≤ y' ∧ y' < y + n then blank else s.shows y' x) ∧
        ∀ a ∈ v.written, a ∈ s.video.written ∨ s.InBuffer a := by
  induction n generalizing s y with
  | zero =>
      refine ⟨s.video, rfl, fun y' x _ => ?_, fun a ha => Or.inl ha⟩
      rw [if_neg (by omega)]
  | succ n ih =>
      obtain ⟨v, hv, hshows, hwritten⟩ := ih (s.clearRow y) (y + 1) (by omega)
      refine ⟨v, hv, fun y' x hx => ?_, fun a ha => ?_⟩
      · have h := hshows y' x hx
        rw [shows_clearRow s y y' hx] at h
        refine h.trans ?_
        split_ifs <;> first | omega | rfl
      · obtain hmem | hbuf := hwritten a ha
        · exact written_clearRow s (by omega) hmem
        · exact Or.inr hbuf

theorem and_ff00 (n : Nat) : n &&& 0xff00 = n / 2 ^ 8 % 2 ^ 8 * 2 ^ 8 := by
  apply Nat.eq_of_testBit_eq
  intro i
  have hmask : (0xff00 : Nat) = (2 ^ 8 - 1) * 2 ^ 8 := rfl
  rw [hmask, Nat.testBit_and, Nat.testBit_mul_two_pow, Nat.testBit_mul_two_pow, Nat.testBit_two_pow_sub_one,
    Nat.testBit_mod_two_pow, Nat.testBit_div_two_pow]
  by_cases hi : 8 ≤ i
  · rw [Nat.sub_add_cancel hi]
    simp [hi, Bool.and_comm]
  · simp [hi]

/-- A word made of a register and a byte for it. -/
theorem outw_or (c : Crtc) (a : Nat) (reg : UInt8) :
    c.outw (reg.toNat ||| a * 2 ^ 8) = { index := reg, reg := Function.update c.reg reg (UInt8.ofNat a) } := by
  have hreg := reg.toNat_lt
  have hsum : reg.toNat ||| a * 2 ^ 8 = a * 2 ^ 8 + reg.toNat := by
    rw [Nat.or_comm, ← Nat.shiftLeft_eq, Nat.shiftLeft_add_eq_or_of_lt hreg]
  have hlow : UInt8.ofNat (a * 2 ^ 8 + reg.toNat) = reg := by
    rw [UInt8.ofNat_eq_iff_mod_eq_toNat]
    omega
  have hhigh : (a * 2 ^ 8 + reg.toNat) / 256 = a := by omega
  rw [hsum, Crtc.outw, hlow, hhigh]

/-- The controller holds the cursor position. -/
theorem position_moveCursor (s : Console) (hx : s.cx < 80) (hy : s.cy < 25) :
    s.moveCursor.crtc.position = s.cx + 80 * s.cy := by
  have hcp : ∀ cp < 2000, let c := (s.crtc.outw (0x0e ||| (cp &&& 0xff00))).outw (0x0f ||| (cp <<< 8) % 2 ^ 16)
      c.position = cp := by
    intro cp hcp
    have hhigh : cp &&& 0xff00 = cp / 256 * 2 ^ 8 := by
      rw [and_ff00]
      omega
    have hlow : (cp <<< 8) % 2 ^ 16 = cp % 256 * 2 ^ 8 := by
      rw [Nat.shiftLeft_eq]
      omega
    have h0e : s.crtc.outw (0x0e ||| cp / 256 * 2 ^ 8) = _ := outw_or s.crtc (cp / 256) 0x0e
    have h0f : ∀ c : Crtc, c.outw (0x0f ||| cp % 256 * 2 ^ 8) = _ := fun c => outw_or c (cp % 256) 0x0f
    simp only [hhigh, hlow, h0e, h0f, Crtc.position]
    rw [Function.update_self, Function.update_of_ne (by decide), Function.update_self, UInt8.toNat_ofNat',
      UInt8.toNat_ofNat']
    omega
  have hmod : (s.cx + colCnt * s.cy) % 2 ^ 16 = s.cx + 80 * s.cy := by
    rw [colCnt]
    omega
  have h := hcp (s.cx + 80 * s.cy) (by omega)
  rw [moveCursor]
  simp only [hmod]
  exact h

namespace Refines

/-- The first cursor move, and every one after it, leaves the screen alone. -/
theorem moveCursor (h : Refines s₀ s t) : Refines s₀ s.moveCursor t :=
  ⟨⟨h.fb, h.row, h.cy, h.lowest, h.cells, h.below, h.written⟩, h.cx, h.column, h.inited⟩

theorem cls (h : Refines s₀ s t) : Refines s₀ s.cls ⟨fun _ _ => blank, 0, 0, 0⟩ := by
  obtain ⟨v, hv, hshows, hwritten⟩ := s.clearRows_spec 0 25 (by decide)
  have heq : s.cls = ({ s with video := v, cx := 0, cy := 0 } : Console).moveCursor := by
    rw [Console.cls, rowCnt, hv]
  rw [heq]
  refine moveCursor ⟨⟨h.fb, by change 0 < 25; decide, rfl, rfl, fun y hy x hx => ?_, fun _ _ _ => rfl, fun a ha => ?_⟩, rfl,
    by change 0 < 80; decide, h.inited⟩
  · exact (hshows y x hx).trans (if_pos ⟨Nat.zero_le y, by omega⟩)
  · obtain hmem | hbuf := hwritten a ha
    · exact h.written a hmem
    · exact Or.inr ((h.inBuffer_iff a).mp hbuf)

theorem put (h : Refines s₀ s t) (ch : UInt8) : Refines s₀ (s.fbPutc ch) (t.put ch) := by
  have hinit : s.initCursor = s := by
    rw [initCursor, if_pos h.inited]
  rw [fbPutc, Terminal.put, hinit]
  refine moveCursor ?_
  by_cases hcr : ch = ascii '\r'
  · rw [if_pos hcr, if_pos hcr]
    exact ⟨⟨h.fb, h.row, h.cy, h.lowest, h.cells, h.below, h.written⟩, rfl, by change 0 < 80; decide, h.inited⟩
  rw [if_neg hcr, if_neg hcr]
  by_cases hlf : ch = ascii '\n'
  · rw [if_pos hlf, if_pos hlf]
    exact h.toWindow.newline h.inited
  rw [if_neg hlf, if_neg hlf]
  by_cases hff : ch = 0x0c
  · rw [if_pos hff, if_pos hff]
    exact h.cls
  rw [if_neg hff, if_neg hff]
  by_cases hbs : ch = 0x08
  · rw [if_pos hbs, if_pos hbs]
    have hcol := h.column
    by_cases hpos : s.cx > 0
    · rw [if_pos hpos]
      refine ⟨⟨h.fb, h.row, h.cy, h.lowest, h.cells, h.below, h.written⟩, congrArg (· - 1) h.cx, ?_, h.inited⟩
      change s.cx - 1 < 80
      omega
    · rw [if_neg hpos]
      refine ⟨⟨h.fb, h.row, h.cy, h.lowest, h.cells, h.below, h.written⟩, ?_, h.column, h.inited⟩
      change s.cx = t.cx - 1
      have := h.cx
      omega
  rw [if_neg hbs, if_neg hbs]
  by_cases htab : ch = ascii '\t'
  · rw [if_pos htab, if_pos htab]
    have hround : roundUp (s.cx + 1) 8 = 8 * (t.cx / 8 + 1) := by
      rw [roundUp, h.cx]
      omega
    rw [← hround]
    exact h.toWindow.advance h.inited _
  rw [if_neg htab, if_neg htab, ← h.cx]
  have hwrite := h.toWindow.write h.column h.cx ch
  rw [← h.cx] at hwrite
  exact hwrite.advance h.inited _

end Refines

/-- The screen as it is, and the terminal that starts with it. -/
theorem refines_terminal (s : Console) (hinit : s.inited = true) (hx : s.cx < 80) (hy : s.cy < 25) :
    Refines s s s.terminal := by
  have htop : s.terminal.top = 0 := by
    change s.cy + 1 - 25 = 0
    omega
  refine ⟨⟨rfl, hy, ?_, rfl, fun y hy' x _ => ?_, fun y x hy' => ?_, fun a ha => Or.inl ha⟩, rfl, hx, hinit⟩
  · rw [htop]
    exact (Nat.zero_add _).symm
  · rw [htop, Nat.zero_add]
    exact (if_pos hy').symm
  · rw [htop] at hy'
    exact if_neg (by omega)

theorem refines_foldl (h : Refines s₀ s t) (chs : List UInt8) :
    Refines s₀ (chs.foldl fbPutc s) (chs.foldl Terminal.put t) := by
  induction chs generalizing s t with
  | nil => exact h
  | cons ch chs ih => exact ih (h.put ch)

/-- `fb_putc` shows a window of the terminal: after any characters the cursor is on the screen, the rows are those of the window, nothing outside the buffer has been written, and the controller has the cursor position. -/
theorem console_refines_terminal (s₀ : Console) (hinit : s₀.inited = true) (hx : s₀.cx < 80) (hy : s₀.cy < 25)
    (chs : List UInt8) :
    let s := chs.foldl fbPutc s₀
    let t := chs.foldl Terminal.put s₀.terminal
    s.cx < 80 ∧ s.cy < 25 ∧ t.cx = s.cx ∧ t.cy = t.top + s.cy ∧
      (∀ y < 25, ∀ x < 80, s.shows y x = t.cells (t.top + y) x) ∧
      (∀ a ∈ s.video.written, a ∈ s₀.video.written ∨ s₀.InBuffer a) ∧
      (chs ≠ [] → s.crtc.position = s.cx + 80 * s.cy) := by
  have h := refines_foldl (refines_terminal s₀ hinit hx hy) chs
  refine ⟨h.column, h.row, h.cx.symm, h.cy, h.cells, h.written, fun hne => ?_⟩
  obtain ⟨chs, ch, rfl⟩ := List.eq_nil_or_concat chs |>.resolve_left hne
  rw [List.concat_eq_append, List.foldl_append] at h ⊢
  exact position_moveCursor _ h.column h.row

/-- An empty screen with the cursor in its last row. -/
def emptyConsole : Console := ⟨0, 24, true, 0xc00b8000, ⟨fun _ => 0, []⟩, ⟨0, fun _ => 0⟩⟩

theorem console_refines_terminal_scroll :
    let chs := "ab\ncd".toList.map ascii
    let s := chs.foldl fbPutc emptyConsole
    let t := chs.foldl Terminal.put emptyConsole.terminal
    (∀ y < 25, ∀ x < 80, s.shows y x = t.cells (t.top + y) x) ∧ s.crtc.position = s.cx + 80 * s.cy := by
  obtain ⟨-, -, -, -, hcells, -, hpos⟩ :=
    console_refines_terminal emptyConsole rfl (by decide) (by decide) ("ab\ncd".toList.map ascii)
  exact ⟨hcells, hpos (by decide)⟩

end Console

end I386Kernel
