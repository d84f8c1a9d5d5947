import I386Kernel.Console.Terminal

/-!
# The first character on the console

`init_cursor` starts three rows below the one the firmware has left the cursor in. Whether the console then keeps to its buffer depends on that row and on the first character: a line feed or a form feed brings the cursor back from anywhere, every other character leaves it in the row it is in.
-/

namespace I386Kernel.Console

/-- The static variables before the first `fb_putc`, over any memory and any state of the controller. -/
def beforeFirst (byte : Nat → UInt8) (crtc : Crtc) : Console := ⟨0, 0, false, 0, ⟨byte, []⟩, crtc⟩

/-- An address of one of the 25 by 80 cells at `ptov(0xb8000)`. -/
def InScreen (a : Nat) : Prop := 0xc00b8000 ≤ a ∧ a < 0xc00b8000 + 25 * 80 * 2

/-- The cursor is on the screen, and nothing outside the buffer has been written. -/
structure OnScreen (s : Console) : Prop where
  column : s.cx < 80
  row : s.cy < 25
  written : ∀ a ∈ s.video.written, InScreen a

/-- `OnScreen` holds after every call of `fb_putc`. -/
def StaysOnScreen : Console → List UInt8 → Prop
  | _, [] => True
  | s, ch :: chs => OnScreen (s.fbPutc ch) ∧ StaysOnScreen (s.fbPutc ch) chs

theorem initCursor_of_inited {s : Console} (hinit : s.inited = true) : s.initCursor = s := by
  rw [initCursor, if_pos hinit]

theorem inited_initCursor (s : Console) : s.initCursor.inited = true := by
  by_cases hinit : s.inited = true
  · rw [initCursor_of_inited hinit]
    exact hinit
  · rw [initCursor, if_neg hinit]

theorem fbPutc_initCursor (s : Console) (ch : UInt8) : s.initCursor.fbPutc ch = s.fbPutc ch := by
  rw [fbPutc, fbPutc, initCursor_of_inited s.inited_initCursor]

/-- The state `init_cursor` leaves, up to the controller. -/
theorem initCursor_beforeFirst (byte : Nat → UInt8) (crtc : Crtc) :
    (beforeFirst byte crtc).initCursor.fb = 0xc00b8000 ∧ (beforeFirst byte crtc).initCursor.cx = 0 ∧
      (beforeFirst byte crtc).initCursor.cy = crtc.position / 80 + 3 ∧
      (beforeFirst byte crtc).initCursor.video.written = [] :=
  ⟨rfl, rfl, rfl, rfl⟩

theorem inScreen_of_inBuffer {s : Console} (hfb : s.fb = 0xc00b8000) {a : Nat} (h : s.InBuffer a) : InScreen a := by
  rw [InBuffer, hfb] at h
  exact h

/-- `init_cursor` has run. -/
structure Initialised (s : Console) : Prop where
  fb : s.fb = 0xc00b8000
  inited : s.inited = true

/-! ## Once the cursor is on the screen -/

theorem OnScreen.put {s : Console} (h : OnScreen s) (hs : Initialised s) (ch : UInt8) :
    OnScreen (s.fbPutc ch) ∧ Initialised (s.fbPutc ch) := by
  have hput := (refines_terminal s hs.inited h.column h.row).put ch
  refine ⟨⟨hput.column, hput.row, fun a ha => ?_⟩, hput.fb.trans hs.fb, hput.inited⟩
  obtain hold | hbuf := hput.written a ha
  · exact h.written a hold
  · exact inScreen_of_inBuffer hs.fb hbuf

theorem OnScreen.stays {s : Console} (h : OnScreen s) (hs : Initialised s) (chs : List UInt8) : StaysOnScreen s chs := by
  induction chs generalizing s with
  | nil => exact trivial
  | cons ch chs ih =>
      obtain ⟨hput, hs'⟩ := h.put hs ch
      exact ⟨hput, ih hput hs'⟩

/-! ## From any row -/

variable {s : Console}

theorem OnScreen.moveCursor (h : OnScreen s) : OnScreen s.moveCursor := ⟨h.column, h.row, h.written⟩

theorem Initialised.moveCursor (h : Initialised s) : Initialised s.moveCursor := ⟨h.fb, h.inited⟩

theorem Initialised.newline (h : Initialised s) (hwritten : ∀ a ∈ s.video.written, InScreen a) :
    OnScreen s.newline ∧ Initialised s.newline := by
  rw [newline_eq]
  by_cases hlast : 25 ≤ s.cy + 1
  · rw [if_pos hlast]
    refine ⟨⟨by show 0 < 80; decide, by show 24 < 25; decide, fun a ha => ?_⟩, h.fb, h.inited⟩
    obtain hscrolled | hbuf := written_clearRow ({ s with cx := 0, cy := 24, video := s.scrolled } : Console)
      (by decide : 24 < 25) ha
    · obtain hold | hbuf := s.written_scrolled hscrolled
      · exact hwritten a hold
      · exact inScreen_of_inBuffer h.fb hbuf
    · exact inScreen_of_inBuffer h.fb hbuf
  · rw [if_neg hlast]
    exact ⟨⟨by show 0 < 80; decide, Nat.lt_of_not_le hlast, hwritten⟩, h.fb, h.inited⟩

theorem Initialised.cls (h : Initialised s) (hwritten : ∀ a ∈ s.video.written, InScreen a) :
    OnScreen s.cls ∧ Initialised s.cls := by
  obtain ⟨v, hv, -, hstores⟩ := s.clearRows_spec 0 25 (by decide)
  have heq : s.cls = ({ s with video := v, cx := 0, cy := 0 } : Console).moveCursor := by
    rw [Console.cls, rowCnt, hv]
  rw [heq]
  refine ⟨OnScreen.moveCursor ⟨by show 0 < 80; decide, by show 0 < 25; decide, fun a ha => ?_⟩,
    Initialised.moveCursor ⟨h.fb, h.inited⟩⟩
  obtain hold | hbuf := hstores a ha
  · exact hwritten a hold
  · exact inScreen_of_inBuffer h.fb hbuf

/-- The characters that bring the cursor back to the screen. -/
def Returns (ch : UInt8) : Prop := ch = ascii '\n' ∨ ch = 0x0c

instance : DecidablePred Returns := fun _ => inferInstanceAs (Decidable (_ ∨ _))

theorem Initialised.put_returns (h : Initialised s) (hwritten : ∀ a ∈ s.video.written, InScreen a) {ch : UInt8}
    (hch : Returns ch) : OnScreen (s.fbPutc ch) ∧ Initialised (s.fbPutc ch) := by
  rw [fbPutc, initCursor_of_inited h.inited]
  obtain rfl | rfl := hch
  · obtain ⟨hon, hinit⟩ := h.newline hwritten
    exact ⟨hon.moveCursor, hinit.moveCursor⟩
  · obtain ⟨hon, hinit⟩ := h.cls hwritten
    exact ⟨hon.moveCursor, hinit.moveCursor⟩

/-- No other character leaves the row, as long as the line does not wrap. -/
theorem cy_fbPutc (hinit : s.inited = true) (hcx : s.cx = 0) {ch : UInt8} (hch : ¬ Returns ch) :
    (s.fbPutc ch).cy = s.cy := by
  obtain ⟨hnl, hff⟩ := not_or.mp hch
  rw [fbPutc, initCursor_of_inited hinit]
  simp only [if_neg hnl, if_neg hff, hcx]
  by_cases hcr : ch = ascii '\r'
  · rw [if_pos hcr]
    rfl
  rw [if_neg hcr]
  by_cases hbs : ch = 0x08
  · rw [if_pos hbs]
    rfl
  rw [if_neg hbs]
  by_cases htab : ch = ascii '\t'
  · rw [if_pos htab]
    rfl
  · rw [if_neg htab]
    simp only [store, hcx]
    rfl

/-- From the cursor position the firmware has left, whatever is printed: the cursor stays on the screen exactly when that position is in one of the first 22 rows or the first character brings the cursor back. -/
theorem staysOnScreen_iff (byte : Nat → UInt8) (crtc : Crtc) (chs : List UInt8) :
    StaysOnScreen (beforeFirst byte crtc) chs ↔ crtc.position < 1760 ∨ ∀ ch ∈ chs.head?, Returns ch := by
  obtain ⟨hfb, hcx, hcy, hwritten⟩ := initCursor_beforeFirst byte crtc
  have hinit : Initialised (beforeFirst byte crtc).initCursor := ⟨hfb, inited_initCursor _⟩
  have hnone : ∀ a ∈ (beforeFirst byte crtc).initCursor.video.written, InScreen a := by
    rw [hwritten]
    exact fun a ha => absurd ha List.not_mem_nil
  cases chs with
  | nil => exact iff_of_true trivial (Or.inr fun ch hch => absurd hch (Option.not_mem_none ch))
  | cons ch chs =>
      rw [StaysOnScreen, ← fbPutc_initCursor]
      by_cases hrow : crtc.position < 1760
      · have hon : OnScreen (beforeFirst byte crtc).initCursor := ⟨by rw [hcx]; decide, by rw [hcy]; omega, hnone⟩
        exact iff_of_true (hon.stays hinit (ch :: chs)) (Or.inl hrow)
      rw [or_iff_right hrow]
      by_cases hch : Returns ch
      · obtain ⟨hon, hinit'⟩ := hinit.put_returns hnone hch
        refine iff_of_true ⟨hon, hon.stays hinit' chs⟩ fun ch' hch' => ?_
        cases hch'
        exact hch
      · -- the row stays below the screen
        have hstay := cy_fbPutc hinit.inited hcx hch
        refine iff_of_false (fun hon => ?_) fun hret => hch (hret ch rfl)
        have hlow := hon.1.row
        rw [hstay, hcy] at hlow
        omega

/-- The firmware has left the cursor at the start of row 22. -/
theorem not_staysOnScreen : ¬ ∀ byte crtc chs, StaysOnScreen (beforeFirst byte crtc) chs := by
  intro h
  have hrow := (h (fun _ => 0) ⟨0, fun r => if r = 0x0e then 0x06 else 0xe0⟩ [ascii 'a']).1.row
  revert hrow
  decide +kernel

end I386Kernel.Console
