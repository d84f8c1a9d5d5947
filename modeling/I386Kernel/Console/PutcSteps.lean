import I386Kernel.Console.Terminal

/-!
# `fb_putc` statement by statement

The statements of `fb_putc`, each reading and writing the cursor and the buffer as they are when its turn comes. A statement may put others in front of the ones left: the body of a function or the next turn of a loop. Taken without interruption they do what `fbPutc` does.
-/

namespace I386Kernel

/-- `size_t` arithmetic. -/
@[irreducible] def sizeT (n : Nat) : Nat := n % 2 ^ 32

theorem sizeT_of_lt {n : Nat} (h : n < 2 ^ 32) : sizeT n = n := by
  rw [sizeT, Nat.mod_eq_of_lt h]

inductive PutcStmt where
  | initCursor
  | setFb
  | findCursor
  | addCy (n : Nat)
  | setInited
  | switch (ch : UInt8)
  | setCx (x : Nat)
  | setCy (y : Nat)
  | testCx
  | decCx
  | roundCx
  /-- `if(cx >= COL_CNT)` -/
  | wrapCx
  | putChar (ch : UInt8)
  | putAttr
  /-- `if(++cx >= COL_CNT)` -/
  | incCx
  | incCy
  /-- `if(cy >= ROW_CNT)` -/
  | wrapCy
  /-- `n` more bytes of the `memmove` of `newline`, from byte `k` on. -/
  | move (k n : Nat)
  /-- `n` more cells of `clear_row`, from column `x` on. -/
  | clearRow (y x n : Nat)
  | clearAttr (y x : Nat)
  /-- `n` more rows of `cls`, from row `y` on. -/
  | clearRows (y n : Nat)
  | moveCursor
  | outw (w : Nat)
deriving DecidableEq

namespace PutcStmt

/-- `newline()` -/
def newline : List PutcStmt := [.setCx 0, .incCy, .wrapCy]

def fbPutc (ch : UInt8) : List PutcStmt := [.initCursor, .switch ch, .moveCursor]

/-- The console after a statement, and the statements it puts in front of those left. -/
def exec (s : Console) : PutcStmt → Console × List PutcStmt
  | .initCursor => (s, if s.inited then [] else [.setFb, .findCursor, .addCy 3, .setCx 0, .moveCursor, .setInited])
  | .setFb => ({ s with fb := 0xc00b8000 }, [])
  | .findCursor =>
      let (cx, cy, c) := s.findCursor
      ({ s with cx := cx, cy := cy, crtc := c }, [])
  | .addCy n => ({ s with cy := sizeT (s.cy + n) }, [])
  | .setInited => ({ s with inited := true }, [])
  | .switch ch =>
      (s, if ch = ascii '\r' then [.setCx 0]
        else if ch = ascii '\n' then newline
        else if ch = 0x0c then [.clearRows 0 rowCnt, .setCy 0, .setCx 0, .moveCursor]
        else if ch = 0x08 then [.testCx]
        else if ch = ascii '\t' then [.roundCx, .wrapCx]
        else [.putChar ch, .putAttr, .incCx])
  | .setCx x => ({ s with cx := x }, [])
  | .setCy y => ({ s with cy := y }, [])
  | .testCx => (s, if s.cx > 0 then [.decCx] else [])
  | .decCx => ({ s with cx := sizeT (s.cx + (2 ^ 32 - 1)) }, [])
  | .roundCx => ({ s with cx := sizeT (Console.roundUp (s.cx + 1) 8) }, [])
  | .wrapCx => (s, if s.cx ≥ colCnt then newline else [])
  | .putChar ch => (s.store (s.cell s.cy s.cx 0) ch, [])
  | .putAttr => (s.store (s.cell s.cy s.cx 1) grayOnBlack, [])
  | .incCx => ({ s with cx := sizeT (s.cx + 1) }, if sizeT (s.cx + 1) ≥ colCnt then newline else [])
  | .incCy => ({ s with cy := sizeT (s.cy + 1) }, [])
  | .wrapCy =>
      (s, if s.cy ≥ rowCnt then
        [.setCy (rowCnt - 1), .move 0 (colCnt * 2 * (rowCnt - 1)), .clearRow (rowCnt - 1) 0 colCnt]
      else [])
  | .move _ 0 => (s, [])
  | .move k (n + 1) => (s.store (s.cell 0 0 0 + k) (s.video.byte (s.cell 1 0 0 + k)), [.move (k + 1) n])
  | .clearRow _ _ 0 => (s, [])
  | .clearRow y x (n + 1) => (s.store (s.cell y 0 0 + x * 2) (ascii ' '), [.clearAttr y x, .clearRow y (x + 1) n])
  | .clearAttr y x => (s.store (s.cell y 0 0 + x * 2 + 1) grayOnBlack, [])
  | .clearRows _ 0 => (s, [])
  | .clearRows y (n + 1) => (s, [.clearRow y 0 colCnt, .clearRows (y + 1) n])
  | .moveCursor =>
      let cp := (s.cx + colCnt * s.cy) % 2 ^ 16
      (s, [.outw (0x0e ||| (cp &&& 0xff00)), .outw (0x0f ||| (cp <<< 8) % 2 ^ 16)])
  | .outw w => ({ s with crtc := s.crtc.outw w }, [])

/-- Row and column of the cells a statement writes. -/
def cells (s : Console) : PutcStmt → List (Nat × Nat)
  | .putChar _ | .putAttr => [(s.cy, s.cx)]
  | .move k (_ + 1) => [(k / (colCnt * 2), k % (colCnt * 2) / 2)]
  | .clearRow y x (_ + 1) | .clearAttr y x => [(y, x)]
  | _ => []

end PutcStmt

/-- The statements, one after the other and with those they put in front, lead from `s` to `s'` and write cells of the screen only. -/
inductive PutcRun : Console → List PutcStmt → Console → Prop
  | nil (s : Console) : PutcRun s [] s
  | cons {s s' : Console} {p : PutcStmt} {ps : List PutcStmt} (hcells : ∀ c ∈ p.cells s, c.1 < 25 ∧ c.2 < 80)
      (hrest : PutcRun (p.exec s).1 ((p.exec s).2 ++ ps) s') : PutcRun s (p :: ps) s'

namespace PutcRun

variable {s s₁ s' : Console} {ps qs : List PutcStmt}

theorem append (h : PutcRun s ps s₁) (h' : PutcRun s₁ qs s') : PutcRun s (ps ++ qs) s' := by
  induction h with
  | nil s => exact h'
  | @cons s s₁ p ps hcells _ ih =>
      refine .cons hcells ?_
      show PutcRun _ ((p.exec s).2 ++ (ps ++ qs)) s'
      rw [← List.append_assoc]
      exact ih h'

/-- A statement that writes no cell and puts `qs` in front. -/
theorem step {p : PutcStmt} (hexec : p.exec s = (s₁, qs)) (hcells : p.cells s = []) (h : PutcRun s₁ (qs ++ ps) s') :
    PutcRun s (p :: ps) s' := by
  refine .cons ?_ ?_
  · rw [hcells]
    nofun
  · rw [hexec]
    exact h

theorem move (s : Console) {k n : Nat} (hn : k + n ≤ 3840) : PutcRun s [.move k n]
    { s with video := s.video.memcpy (s.cell 0 0 0 + k) (s.cell 1 0 0 + k) n } := by
  induction n generalizing s k with
  | zero => exact step rfl rfl (.nil s)
  | succ n ih =>
      refine .cons (fun c hc => ?_) (ih _ (by omega))
      rw [List.mem_singleton.mp hc]
      show k / 160 < 25 ∧ k % 160 / 2 < 80
      omega

theorem clearRow (s : Console) {y x n : Nat} (hy : y < 25) (hn : x + n ≤ 80) : PutcRun s [.clearRow y x n]
    { s with video := Console.clearCells s.video (s.cell y 0 0) x n } := by
  induction n generalizing s x with
  | zero => exact step rfl rfl (.nil s)
  | succ n ih =>
      refine .cons (fun c hc => ?_) (.cons (fun c hc => ?_) (ih _ (by omega)))
      all_goals
        rw [List.mem_singleton.mp hc]
        exact ⟨hy, (by omega : x < 80)⟩

theorem clearRows (s : Console) {y n : Nat} (hn : y + n ≤ 25) : PutcRun s [.clearRows y n] (s.clearRows y n) := by
  induction n generalizing s y with
  | zero => exact step rfl rfl (.nil s)
  | succ n ih =>
      have hrow : PutcRun s [.clearRow y 0 80] (s.clearRow y) := clearRow s (by omega) (Nat.le_refl 80)
      exact step rfl rfl (hrow.append (ih (s.clearRow y) (by omega)))

theorem moveCursor (s : Console) : PutcRun s [.moveCursor] s.moveCursor :=
  step rfl rfl (step rfl rfl (step rfl rfl (.nil _)))

theorem newline (s : Console) (hy : s.cy < 25) : PutcRun s PutcStmt.newline s.newline := by
  have hcy : sizeT (s.cy + 1) = s.cy + 1 := sizeT_of_lt (by omega)
  refine step rfl rfl (step rfl rfl ?_)
  show PutcRun { s with cx := 0, cy := sizeT (s.cy + 1) } [.wrapCy] s.newline
  rw [hcy, Console.newline]
  by_cases hrow : s.cy + 1 ≥ rowCnt
  · rw [if_pos hrow]
    refine step (congrArg (Prod.mk _) (if_pos hrow)) rfl (step rfl rfl ?_)
    have hmove := move { s with cx := 0, cy := 24 } (k := 0) (n := 3840) (by decide)
    exact hmove.append (clearRow { s with cx := 0, cy := 24, video := s.scrolled } (y := 24) (by decide) (Nat.le_refl 80))
  · rw [if_neg hrow]
    exact step (congrArg (Prod.mk _) (if_neg hrow)) rfl (.nil _)

/-- `if(cx >= COL_CNT) newline();` -/
theorem wrap (s : Console) (hy : s.cy < 25) :
    PutcRun s (if s.cx ≥ colCnt then PutcStmt.newline else []) (if s.cx ≥ colCnt then s.newline else s) := by
  by_cases hx : s.cx ≥ colCnt
  · rw [if_pos hx, if_pos hx]
    exact newline s hy
  · rw [if_neg hx, if_neg hx]
    exact .nil s

/-- Taken without interruption, the statements of `fb_putc` do what the function does, and every cell they write is on the screen. -/
theorem fbPutc (s : Console) (hinit : s.inited = true) (hx : s.cx < 80) (hy : s.cy < 25) (ch : UInt8) :
    PutcRun s (PutcStmt.fbPutc ch) (s.fbPutc ch) := by
  have hcursor : s.initCursor = s := by
    rw [Console.initCursor, if_pos hinit]
  have hsize : ∀ n ≤ 88, sizeT n = n := fun n hn => sizeT_of_lt (by omega)
  refine step (congrArg (Prod.mk s) (if_pos hinit)) rfl ?_
  rw [Console.fbPutc, hcursor]
  suffices hswitch : PutcRun s [.switch ch] _ from hswitch.append (moveCursor _)
  refine step rfl rfl ?_
  rw [List.append_nil]
  by_cases hcr : ch = ascii '\r'
  · rw [if_pos hcr, if_pos hcr]
    exact step rfl rfl (.nil _)
  rw [if_neg hcr, if_neg hcr]
  by_cases hlf : ch = ascii '\n'
  · rw [if_pos hlf, if_pos hlf]
    exact newline s hy
  rw [if_neg hlf, if_neg hlf]
  by_cases hff : ch = 0x0c
  · rw [if_pos hff, if_pos hff, Console.cls]
    have hrows : PutcRun s [.clearRows 0 rowCnt] (s.clearRows 0 rowCnt) := clearRows s (by decide)
    generalize s.clearRows 0 rowCnt = s₁ at hrows
    exact hrows.append (step rfl rfl (step rfl rfl (moveCursor { s₁ with cx := 0, cy := 0 })))
  rw [if_neg hff, if_neg hff]
  by_cases hbs : ch = 0x08
  · rw [if_pos hbs, if_pos hbs]
    by_cases hpos : s.cx > 0
    · have hdec : sizeT (s.cx + (2 ^ 32 - 1)) = s.cx - 1 := by
        rw [sizeT]
        omega
      have hrun : PutcRun s [.decCx] { s with cx := sizeT (s.cx + (2 ^ 32 - 1)) } := step rfl rfl (.nil _)
      rw [hdec] at hrun
      rw [if_pos hpos]
      exact step (congrArg (Prod.mk s) (if_pos hpos)) rfl hrun
    · rw [if_neg hpos]
      exact step (congrArg (Prod.mk s) (if_neg hpos)) rfl (.nil _)
  rw [if_neg hbs, if_neg hbs]
  by_cases htab : ch = ascii '\t'
  · rw [if_pos htab, if_pos htab]
    have hround : sizeT (Console.roundUp (s.cx + 1) 8) = Console.roundUp (s.cx + 1) 8 := by
      refine hsize _ ?_
      rw [Console.roundUp]
      omega
    refine step rfl rfl (step rfl rfl ?_)
    rw [List.append_nil, hround]
    exact wrap { s with cx := Console.roundUp (s.cx + 1) 8 } hy
  rw [if_neg htab, if_neg htab]
  have hcell : ∀ c ∈ [(s.cy, s.cx)], c.1 < 25 ∧ c.2 < 80 := by
    intro c hc
    rw [List.mem_singleton.mp hc]
    exact ⟨hy, hx⟩
  refine .cons hcell (.cons hcell (step rfl rfl ?_))
  have hinc : sizeT (s.cx + 1) = s.cx + 1 := hsize _ (by omega)
  rw [List.append_nil]
  show PutcRun { ((s.store (s.cell s.cy s.cx 0) ch).store (s.cell s.cy s.cx 1) grayOnBlack) with cx := sizeT (s.cx + 1) }
    (if sizeT (s.cx + 1) ≥ colCnt then PutcStmt.newline else []) _
  rw [hinc]
  exact wrap { ((s.store (s.cell s.cy s.cx 0) ch).store (s.cell s.cy s.cx 1) grayOnBlack) with cx := s.cx + 1 } hy

end PutcRun

end I386Kernel
