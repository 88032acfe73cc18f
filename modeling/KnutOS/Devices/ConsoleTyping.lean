import KnutOS.Devices.ConsoleReach

/-! Where the glyphs of a string go, line by line. -/
namespace KnutOS

/-- What is on the screen, the cells of the glyphs drawn so far, where they are by now, and the
number of scrolls. -/
structure Tracked (σ : Type) where
  screen : σ
  cells : List (ℤ × ℤ)
  scrolls : ℕ

/-- The same drawing. A scroll takes every cell 16 lines up. -/
def Canvas.tracking {σ : Type} (C : Canvas σ) : Canvas (Tracked σ) where
  putGlyph t x y unicode fg :=
    ⟨C.putGlyph t.screen x y unicode fg, t.cells ++ [(x, y)], t.scrolls⟩
  moveOneRowUp t :=
    ⟨C.moveOneRowUp t.screen, t.cells.map fun cell => (cell.1, cell.2 - 16), t.scrolls + 1⟩

theorem Canvas.tracking_hom {σ : Type} (C : Canvas σ) : C.tracking.Hom C Tracked.screen :=
  ⟨fun _ _ _ _ _ => rfl, fun _ => rfl⟩

/-! The string begins in column `x₀` of a screen that is `W` pixels wide. -/

/-- The number of glyphs on the line where the string begins. -/
def firstLine (W x₀ : ℤ) : ℕ := ((W - x₀) / 8).toNat

/-- The number of glyphs on any other line. -/
def lineLength (W : ℤ) : ℕ := (W / 8).toNat

/-- The column and the line of the `k`-th glyph. -/
def columnOf (W x₀ : ℤ) (k : ℕ) : ℤ :=
  if k < firstLine W x₀ then x₀ + 8 * k else 8 * ((k - firstLine W x₀) % lineLength W : ℕ)

def lineOf (W x₀ : ℤ) (k : ℕ) : ℕ :=
  if k < firstLine W x₀ then 0 else (k - firstLine W x₀) / lineLength W + 1

variable {W x₀ y₀ : ℤ} {k : ℕ}

theorem columnOf_first (h : k < firstLine W x₀) : columnOf W x₀ k = x₀ + 8 * k := if_pos h

theorem columnOf_rest (h : firstLine W x₀ ≤ k) :
    columnOf W x₀ k = 8 * ((k - firstLine W x₀) % lineLength W : ℕ) := if_neg (Nat.not_lt.mpr h)

theorem lineOf_first (h : k < firstLine W x₀) : lineOf W x₀ k = 0 := if_pos h

theorem lineOf_rest (h : firstLine W x₀ ≤ k) :
    lineOf W x₀ k = (k - firstLine W x₀) / lineLength W + 1 := if_neg (Nat.not_lt.mpr h)

theorem firstLine_bounds (hx : x₀ + 8 ≤ W) :
    0 < firstLine W x₀ ∧ x₀ + 8 * firstLine W x₀ ≤ W ∧ W < x₀ + 8 * firstLine W x₀ + 8 := by
  rw [firstLine]
  omega

theorem lineLength_bounds (hW : 8 ≤ W) :
    0 < lineLength W ∧ 8 * (lineLength W : ℤ) ≤ W ∧ W < 8 * lineLength W + 8 := by
  rw [lineLength]
  omega

/-- The next glyph is to the right, or at the beginning of the next line. -/
theorem layout_succ (hW : 8 ≤ W) (hx : x₀ + 8 ≤ W) (k : ℕ) :
    (columnOf W x₀ k + 16 ≤ W ∧ columnOf W x₀ (k + 1) = columnOf W x₀ k + 8 ∧
      lineOf W x₀ (k + 1) = lineOf W x₀ k) ∨
    (W < columnOf W x₀ k + 16 ∧ columnOf W x₀ (k + 1) = 0 ∧
      lineOf W x₀ (k + 1) = lineOf W x₀ k + 1) := by
  obtain ⟨hF, hFlo, hFhi⟩ := firstLine_bounds hx
  obtain ⟨hL, hLlo, hLhi⟩ := lineLength_bounds hW
  rcases Nat.lt_trichotomy (k + 1) (firstLine W x₀) with hlt | heq | hgt
  · left
    rw [columnOf_first hlt, columnOf_first (k := k) (by omega), lineOf_first hlt,
      lineOf_first (k := k) (by omega)]
    omega
  · right
    rw [columnOf_rest (Nat.le_of_eq heq.symm), columnOf_first (k := k) (by omega),
      lineOf_rest (Nat.le_of_eq heq.symm), lineOf_first (k := k) (by omega), heq, Nat.sub_self,
      Nat.zero_mod, Nat.zero_div]
    omega
  · have hsucc : k + 1 - firstLine W x₀ = k - firstLine W x₀ + 1 := by omega
    have hdiv := Nat.mod_add_div (k - firstLine W x₀) (lineLength W)
    have hlt := Nat.mod_lt (k - firstLine W x₀) hL
    rw [columnOf_rest (k := k + 1) (by omega), columnOf_rest (k := k) (by omega),
      lineOf_rest (k := k + 1) (by omega), lineOf_rest (k := k) (by omega), hsucc]
    by_cases hroom : (k - firstLine W x₀) % lineLength W + 1 < lineLength W
    · left
      have hnext := (Nat.div_mod_unique hL (a := k - firstLine W x₀ + 1)).mpr
        ⟨by rw [Nat.add_right_comm, hdiv], hroom⟩
      rw [hnext.1, hnext.2]
      omega
    · right
      have hnext := (Nat.div_mod_unique hL (a := k - firstLine W x₀ + 1)
        (d := (k - firstLine W x₀) / lineLength W + 1) (c := 0)).mpr
          ⟨by rw [Nat.mul_add]; omega, hL⟩
      rw [hnext.1, hnext.2]
      omega

namespace Console

def track {σ : Type} (c : Console σ) : Console (Tracked σ) := ⟨c.x, c.y, c.fg, ⟨c.canvas, [], 0⟩⟩

/-- The console after a string. -/
def typed {σ : Type} (g : Gfx) (C : Canvas σ) (c : Console σ) (string : List Char)
    (fg : BitVec 32) : Console (Tracked σ) :=
  framebufferPrintString g C.tracking c.track string fg

/-- What is tracked changes nothing else. -/
theorem typed_screen {σ : Type} (g : Gfx) (C : Canvas σ) (c : Console σ) (string : List Char)
    (fg : BitVec 32) :
    (typed g C c string fg).map Tracked.screen = framebufferPrintString g C c string fg :=
  map_framebufferPrintString g c.track C.tracking_hom string fg

/-- The line of the `k`-th glyph, after `n` scrolls. Once the screen scrolls, the line is the last
one. -/
structure OnLine (g : Gfx) (x₀ y₀ : ℤ) (k n : ℕ) (y : ℤ) : Prop where
  onScreen : y < g.height
  above : y₀ + 16 * ((lineOf g.width x₀ k : ℤ) - n) < g.height
  line : n = 0 ∧ y = y₀ + 16 * (lineOf g.width x₀ k : ℤ) ∨
    0 < n ∧ y = g.height - 16 ∧ g.height ≤ y₀ + 16 * ((lineOf g.width x₀ k : ℤ) - n) + 16

/-- No coordinate on the way to the `k`-th glyph leaves its `int16_t`. -/
structure NoOverflow (g : Gfx) (x₀ y₀ : ℤ) (k : ℕ) : Prop where
  column : k < firstLine g.width x₀ → x₀ + 8 * k < 2 ^ 15
  width : firstLine g.width x₀ ≤ k → g.width < 2 ^ 15
  line : y₀ + 16 * (lineOf g.width x₀ k : ℤ) < 2 ^ 15 ∨ g.height ≤ 2 ^ 15 - 16 + y₀ % 16

/-- The cell of the `i`-th glyph, seen from line `y` of the `k`-th. -/
def cellOf (g : Gfx) (x₀ : ℤ) (k : ℕ) (y : ℤ) (i : ℕ) : ℤ × ℤ :=
  (columnOf g.width x₀ i, y - 16 * ((lineOf g.width x₀ k : ℤ) - lineOf g.width x₀ i))

/-- Lines fit together when the screen scrolls, or it does not. -/
def Aligned (g : Gfx) (y₀ : ℤ) (n : ℕ) : Prop := n = 0 ∨ (g.height - y₀) % 16 = 0

variable {σ : Type} {g : Gfx} {C : Canvas σ} {c : Console σ} {q t : Console (Tracked σ)}
  {m n : ℕ} {unicode : Char} {fg : BitVec 32} {y : ℤ}

/-- The cursor is where the `k`-th glyph goes. -/
structure Before (g : Gfx) (x₀ y₀ : ℤ) (m k n : ℕ) (q : Console (Tracked σ)) : Prop where
  cell : SoundCell g q.x q.y
  column : q.x = columnOf g.width x₀ k
  onLine : OnLine g x₀ y₀ k n q.y
  scrolls : q.canvas.scrolls = m + n
  start : k = 0 → n = 0 ∧ q.canvas.cells = []
  first : k ≠ 0 → q.canvas.cells.head? = some (x₀, y₀ - 16 * n)
  cells : Aligned g y₀ n → q.canvas.cells = (List.range k).map (cellOf g x₀ k q.y)

/-- The cursor is behind the `k`-th glyph. -/
structure After (g : Gfx) (x₀ y₀ : ℤ) (m k n : ℕ) (t : Console (Tracked σ)) : Prop where
  sound : Sound g t.x t.y
  column : t.x = columnOf g.width x₀ k + 8
  onLine : OnLine g x₀ y₀ k n t.y
  scrolls : t.canvas.scrolls = m + n
  first : t.canvas.cells.head? = some (x₀, y₀ - 16 * n)
  cells : Aligned g y₀ n → t.canvas.cells = (List.range (k + 1)).map (cellOf g x₀ k t.y)

theorem cellOf_self (g : Gfx) (x₀ : ℤ) (k : ℕ) (y : ℤ) :
    cellOf g x₀ k y k = (columnOf g.width x₀ k, y) := by
  simp [cellOf]

theorem NoOverflow.of_succ (hW : 8 ≤ g.width) (hx : x₀ + 8 ≤ g.width)
    (h : NoOverflow g x₀ y₀ (k + 1)) : NoOverflow g x₀ y₀ k := by
  obtain ⟨_, hfirst, _⟩ := firstLine_bounds hx
  obtain ⟨hcolumn, hwidth, hline⟩ := h
  refine ⟨?_, fun hk => hwidth (by omega), ?_⟩
  · intro hk
    rcases Nat.lt_or_ge (k + 1) (firstLine g.width x₀) with hk' | hk'
    · have hcolumn := hcolumn hk'
      omega
    · have hwidth := hwidth hk'
      omega
  · rcases layout_succ hW hx k with ⟨_, _, hnext⟩ | ⟨_, _, hnext⟩ <;>
      · rw [hnext] at hline
        omega

theorem NoOverflow.mono (hW : 8 ≤ g.width) (hx : x₀ + 8 ≤ g.width) {j : ℕ} (hj : j ≤ k)
    (h : NoOverflow g x₀ y₀ k) : NoOverflow g x₀ y₀ j := by
  induction hj with
  | refl => exact h
  | step _ ih => exact ih (h.of_succ hW hx)

theorem NoOverflow.behind (h : NoOverflow g x₀ y₀ (k + 1))
    (hfits : columnOf g.width x₀ k + 8 ≤ g.width) : columnOf g.width x₀ k + 8 < 2 ^ 15 := by
  rcases Nat.lt_or_ge (k + 1) (firstLine g.width x₀) with hk | hk
  · have hcolumn := h.column hk
    rw [columnOf_first (k := k) (by omega)]
    omega
  · have hwidth := h.width hk
    omega

theorem NoOverflow.below (h : NoOverflow g x₀ y₀ (k + 1)) (hon : OnLine g x₀ y₀ k n y)
    (hnext : lineOf g.width x₀ (k + 1) = lineOf g.width x₀ k + 1) : y + 16 < 2 ^ 15 := by
  have hline := h.line
  have honScreen := hon.onScreen
  rw [hnext] at hline
  rcases hon.line with ⟨rfl, hy⟩ | ⟨hn, hy, hlast⟩ <;> omega

theorem Before.glyph (hno : NoOverflow g x₀ y₀ (k + 1)) (hx : x₀ + 8 ≤ g.width)
    (h : Before g x₀ y₀ m k n q) (hu : Glyph unicode) :
    After g x₀ y₀ m k n (ssfnPutc C.tracking { q with fg := fg } unicode) := by
  have hfits := h.cell.fits
  have hleft := h.cell.inRange.left
  have hbehind : q.x + 8 < 2 ^ 15 := by
    rw [h.column] at hfits ⊢
    exact hno.behind hfits
  have hsound : Sound g (ssfnPutc C.tracking { q with fg := fg } unicode).x
      (ssfnPutc C.tracking { q with fg := fg } unicode).y := h.cell.glyph hbehind hu
  have hfirst : (q.canvas.cells ++ [(q.x, q.y)]).head? = some (x₀, y₀ - 16 * n) := by
    by_cases hk : k = 0
    · obtain ⟨rfl, hcells⟩ := h.start hk
      have hpos := (firstLine_bounds hx).1
      have hcolumn := h.column
      have hline := h.onLine.line
      rw [hk, columnOf_first hpos] at hcolumn
      rw [hk, lineOf_first hpos] at hline
      rw [hcells, List.nil_append, List.head?_cons, Option.some.injEq]
      apply Prod.ext <;> dsimp only <;> omega
    · rw [List.head?_append, h.first hk]
      rfl
  have hcells : Aligned g y₀ n →
      q.canvas.cells ++ [(q.x, q.y)] = (List.range (k + 1)).map (cellOf g x₀ k q.y) := by
    intro hal
    rw [h.cells hal, List.range_succ, List.map_append, List.map_singleton, cellOf_self, h.column]
  have hcolumn : toInt16 (q.x + 8) = columnOf g.width x₀ k + 8 := by
    rw [toInt16_eq (by omega) hbehind, h.column]
  rw [ssfnPutc_eq _ _ hu] at hsound ⊢
  exact ⟨hsound, hcolumn, h.onLine, h.scrolls, hfirst, hcells⟩

/-- The cells of a line seen from another one. -/
theorem cellOf_congr {g : Gfx} {x₀ y y' : ℤ} {k k' : ℕ}
    (h : y' - 16 * (lineOf g.width x₀ k' : ℤ) = y - 16 * (lineOf g.width x₀ k : ℤ)) :
    cellOf g x₀ k' y' = cellOf g x₀ k y := by
  funext i
  apply Prod.ext
  · rfl
  · dsimp only [cellOf]
    omega

/-- The cursor is still on the last line when the screen has to scroll. -/
theorem OnLine.bottom (h : OnLine g x₀ y₀ k n y) (hlast : g.height ≤ y + 16)
    (hal : Aligned g y₀ (n + 1)) : y = g.height - 16 := by
  have honScreen := h.onScreen
  rcases hal with hn | hal
  · exact absurd hn (Nat.succ_ne_zero n)
  · rcases h.line with ⟨_, hy⟩ | ⟨_, hy, _⟩
    · omega
    · exact hy

/-- On the same line, the next glyph goes where the cursor is. -/
theorem After.stay (hcell : SoundCell g t.x t.y) (h : After g x₀ y₀ m k n t)
    (hcolumn : columnOf g.width x₀ (k + 1) = columnOf g.width x₀ k + 8)
    (hline : lineOf g.width x₀ (k + 1) = lineOf g.width x₀ k) :
    Before g x₀ y₀ m (k + 1) n t where
  cell := hcell
  column := by rw [h.column, hcolumn]
  onLine := by
    obtain ⟨honScreen, habove, hon⟩ := h.onLine
    exact ⟨honScreen, by rwa [hline], by rwa [hline]⟩
  scrolls := h.scrolls
  start := fun hk => absurd hk (Nat.succ_ne_zero k)
  first := fun _ => h.first
  cells := by
    intro hal
    rw [h.cells hal, cellOf_congr]
    rw [hline]

/-- At the end of a line above the last one, it goes to the next line. -/
theorem After.nextLine (hcell : SoundCell g 0 (t.y + 16)) (h : After g x₀ y₀ m k n t)
    (hcolumn : columnOf g.width x₀ (k + 1) = 0)
    (hline : lineOf g.width x₀ (k + 1) = lineOf g.width x₀ k + 1) :
    Before g x₀ y₀ m (k + 1) n { t with x := 0, y := t.y + 16 } := by
  have hlow := hcell.onScreen
  have hzero : n = 0 ∧ t.y = y₀ + 16 * (lineOf g.width x₀ k : ℤ) := by
    rcases h.onLine.line with hzero | ⟨_, hy, _⟩
    · exact hzero
    · omega
  obtain ⟨rfl, hy⟩ := hzero
  have hon : OnLine g x₀ y₀ (k + 1) 0 (t.y + 16) := by
    refine ⟨hlow, ?_, .inl ⟨rfl, ?_⟩⟩ <;>
      · rw [hline]
        omega
  have hcells : cellOf g x₀ k t.y = cellOf g x₀ (k + 1) (t.y + 16) := by
    apply cellOf_congr
    rw [hline]
    omega
  exact ⟨hcell, hcolumn.symm, hon, h.scrolls, fun hk => absurd hk (Nat.succ_ne_zero k),
    fun _ => h.first, fun hal => (h.cells hal).trans (by rw [hcells])⟩

/-- At the end of the last line, the screen scrolls. -/
theorem After.scroll (hcell : SoundCell g 0 (g.height - 16)) (h : After g x₀ y₀ m k n t)
    (hlast : g.height ≤ t.y + 16) (hcolumn : columnOf g.width x₀ (k + 1) = 0)
    (hline : lineOf g.width x₀ (k + 1) = lineOf g.width x₀ k + 1) :
    Before g x₀ y₀ m (k + 1) (n + 1)
      { t with x := 0, y := g.height - 16, canvas := C.tracking.moveOneRowUp t.canvas } where
  cell := hcell
  column := hcolumn.symm
  onLine := by
    have habove := h.onLine.above
    refine ⟨hcell.onScreen, by rw [hline]; omega, .inr ⟨Nat.succ_pos n, rfl, ?_⟩⟩
    rw [hline]
    rcases h.onLine.line with ⟨rfl, hy⟩ | ⟨_, _, hbelow⟩ <;> omega
  scrolls := congrArg (· + 1) h.scrolls
  start := fun hk => absurd hk (Nat.succ_ne_zero k)
  first := by
    intro _
    change (t.canvas.cells.map fun cell => (cell.1, cell.2 - 16)).head? = _
    rw [List.head?_map, h.first, Option.map_some, Option.some.injEq]
    apply Prod.ext
    · rfl
    · dsimp only
      omega
  cells := by
    intro hal
    have hy : t.y = g.height - 16 := h.onLine.bottom hlast hal
    have hal' : Aligned g y₀ n := hal.elim (fun hn => absurd hn (Nat.succ_ne_zero n)) .inr
    change (t.canvas.cells.map fun cell => (cell.1, cell.2 - 16)) = _
    rw [h.cells hal', List.map_map]
    refine List.map_congr_left fun i _ => ?_
    apply Prod.ext
    · rfl
    · dsimp only [Function.comp_apply, cellOf]
      rw [hline]
      omega

theorem columnOf_nonneg (hleft : x₀ % 8 = 0 → 0 ≤ x₀) (k : ℕ) :
    columnOf W x₀ k % 8 = 0 → 0 ≤ columnOf W x₀ k := by
  rcases Nat.lt_or_ge k (firstLine W x₀) with hk | hk
  · rw [columnOf_first hk]
    omega
  · rw [columnOf_rest hk]
    omega

/-- The next glyph goes on without a scroll, or with one at the end of a line. -/
theorem After.place (hno : NoOverflow g x₀ y₀ (k + 1)) (hW : 8 ≤ g.width) (hH : 16 ≤ g.height)
    (hx : x₀ + 8 ≤ g.width) (hleft : x₀ % 8 = 0 → 0 ≤ x₀) (h : After g x₀ y₀ m k n t) :
    (Before g x₀ y₀ m (k + 1) n (placeCursor g C.tracking t t.x t.y) ∧
      (placeCursor g C.tracking t t.x t.y).canvas = t.canvas ∧
      (0 < n → columnOf g.width x₀ (k + 1) ≠ 0)) ∨
    (Before g x₀ y₀ m (k + 1) (n + 1) (placeCursor g C.tracking t t.x t.y) ∧
      columnOf g.width x₀ (k + 1) = 0) := by
  have hcolumn := h.column
  have honScreen := h.onLine.onScreen
  have hbelow : g.width < t.x + 8 → t.y + 16 < 2 ^ 15 := by
    intro hover
    rcases layout_succ hW hx k with ⟨_, _, _⟩ | ⟨_, _, hline⟩
    · omega
    · exact hno.below h.onLine hline
  have hcell : SoundCell g (placeCursor g C.tracking t t.x t.y).x
      (placeCursor g C.tracking t t.x t.y).y := h.sound.place hW hH hbelow
  have hnonneg := columnOf_nonneg (W := g.width) hleft k
  rcases layout_succ hW hx k with ⟨hroom, hnext, hline⟩ | ⟨hroom, hnext, hline⟩
  · rcases placeCursor_cases (D := C.tracking) h.sound.inRange (by omega) hbelow
      h.sound.bottom with ⟨_, _, hplace⟩ | ⟨hover, _⟩ |
      ⟨hover, _⟩
    · rw [hplace] at hcell ⊢
      exact .inl ⟨h.stay hcell hnext hline, rfl, by omega⟩
    · omega
    · have hover := hover honScreen
      omega
  · rcases placeCursor_cases (D := C.tracking) h.sound.inRange (by omega) hbelow
      h.sound.bottom with ⟨hfit, _⟩ |
      ⟨_, hlow, hplace⟩ | ⟨_, hlast, hplace⟩
    · omega
    · have hn : ¬ 0 < n := by
        rcases h.onLine.line with ⟨hn, _⟩ | ⟨_, hy, _⟩ <;> omega
      rw [hplace] at hcell ⊢
      exact .inl ⟨h.nextLine hcell hnext hline, rfl, fun hpos => absurd hpos hn⟩
    · rw [hplace] at hcell ⊢
      exact .inr ⟨h.scroll hcell hlast hnext hline, hnext⟩

theorem After.glyph (hno : NoOverflow g x₀ y₀ (k + 2)) (hW : 8 ≤ g.width) (hH : 16 ≤ g.height)
    (hx : x₀ + 8 ≤ g.width) (hleft : x₀ % 8 = 0 → 0 ≤ x₀) (h : After g x₀ y₀ m k n t)
    (hu : Glyph unicode) :
    ∃ n', After g x₀ y₀ m (k + 1) n' (printOne g C.tracking t unicode t.x t.y fg) := by
  rw [printOne_glyph hu]
  rcases h.place (hno.of_succ hW hx) hW hH hx hleft with ⟨hbefore, _⟩ | ⟨hbefore, _⟩
  · exact ⟨n, hbefore.glyph hno hx hu⟩
  · exact ⟨n + 1, hbefore.glyph hno hx hu⟩

theorem After.string {l : List Char} (hW : 8 ≤ g.width) (hH : 16 ≤ g.height)
    (hx : x₀ + 8 ≤ g.width) (hleft : x₀ % 8 = 0 → 0 ≤ x₀) (hl : ∀ u ∈ l, Glyph u)
    (hno : NoOverflow g x₀ y₀ (k + l.length + 1)) (h : After g x₀ y₀ m k n t) :
    ∃ n', After g x₀ y₀ m (k + l.length) n' (framebufferPrintString g C.tracking t l fg) := by
  induction l generalizing k n t with
  | nil => exact ⟨n, h⟩
  | cons u l ih =>
    have hu := hl u List.mem_cons_self
    have hnext : NoOverflow g x₀ y₀ (k + 2) := hno.mono hW hx (by rw [List.length_cons]; omega)
    have hfirst : ∃ n', After g x₀ y₀ m (k + 1) n' (printOne g C.tracking t u t.x t.y fg) :=
      h.glyph hnext hW hH hx hleft hu
    have hlen : k + (u :: l).length = k + 1 + l.length := by
      rw [List.length_cons]
      omega
    rw [hlen] at hno ⊢
    rw [printString_cons _ _ hu]
    obtain ⟨_, hfirst⟩ := hfirst
    exact ih (fun u hu => hl u (List.mem_cons_of_mem _ hu)) hno hfirst

theorem track_cells (x y : ℤ) : (placeCursor g C.tracking c.track x y).canvas.cells = [] := by
  simp only [placeCursor]
  split_ifs <;> rfl

/-- The string begins where the cursor is placed. -/
theorem track_before (hplace : placeCursor g C.tracking c.track c.x c.y = q)
    (hcell : SoundCell g q.x q.y) : Before g q.x q.y q.canvas.scrolls 0 0 q := by
  have hpos := (firstLine_bounds hcell.fits).1
  have hcells : q.canvas.cells = [] := by
    rw [← hplace]
    exact track_cells _ _
  have hcolumn : q.x = columnOf g.width q.x 0 := by
    rw [columnOf_first hpos]
    omega
  have hline : OnLine g q.x q.y 0 0 q.y := by
    have honScreen := hcell.onScreen
    refine ⟨honScreen, ?_, .inl ⟨rfl, ?_⟩⟩ <;>
      · rw [lineOf_first hpos]
        omega
  exact ⟨hcell, hcolumn, hline, rfl, fun _ => ⟨rfl, hcells⟩, fun h => absurd rfl h, fun _ => hcells⟩

theorem typed_after {string : List Char} (hW : 8 ≤ g.width) (hH : 16 ≤ g.height)
    (hplace : placeCursor g C.tracking c.track c.x c.y = q) (hcell : SoundCell g q.x q.y)
    (hno : NoOverflow g q.x q.y string.length) (hl : ∀ u ∈ string, Glyph u)
    (hlen : string.length = k + 1) :
    ∃ n, After g q.x q.y q.canvas.scrolls k n (typed g C c string fg) := by
  cases string with
  | nil => exact absurd hlen (Nat.zero_ne_add_one k)
  | cons u l =>
    have hu := hl u List.mem_cons_self
    have hk : l.length = k := Nat.succ.inj hlen
    have hone : NoOverflow g q.x q.y 1 := hno.mono hW hcell.fits (by rw [List.length_cons]; omega)
    have hfirst : After g q.x q.y q.canvas.scrolls 0 0
        (printOne g C.tracking c.track u c.x c.y fg) := by
      rw [printOne_glyph hu, hplace]
      exact (track_before hplace hcell).glyph hone hcell.fits hu
    have hrest : NoOverflow g q.x q.y (0 + l.length + 1) := by rwa [Nat.zero_add]
    rw [typed, printString_cons _ _ hu, ← hk, ← Nat.zero_add l.length]
    exact hfirst.string hW hH hcell.fits hcell.left
      (fun u hu => hl u (List.mem_cons_of_mem _ hu)) hrest

end Console

end KnutOS
