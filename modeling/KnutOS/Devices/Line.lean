import KnutOS.Devices.Drawing
import Mathlib.Algebra.Order.Ring.Int
import Mathlib.Tactic.Linarith
import Mathlib.Tactic.Ring
import Mathlib.Tactic.SplitIfs

/-! Where `framebuffer_draw_line` draws, and that it comes to an end. -/
namespace KnutOS

open Foundation

/-- The axis-parallel rectangle spanned by two points. -/
def InRectangle (x₀ y₀ x₁ y₁ : ℤ) (p : ℤ × ℤ) : Prop :=
  min x₀ x₁ ≤ p.1 ∧ p.1 ≤ max x₀ x₁ ∧ min y₀ y₁ ≤ p.2 ∧ p.2 ≤ max y₀ y₁

/-- The end lies `dx` steps of `sx` and `-dy` steps of `sy` from the start. -/
structure Aims (l : LineParams) (x₀ y₀ : ℤ) : Prop where
  dx_pos : 0 < l.dx
  dy_neg : l.dy < 0
  sx : l.sx = 1 ∨ l.sx = -1
  sy : l.sy = 1 ∨ l.sy = -1
  xEnd : l.xEndPos = x₀ + l.sx * l.dx
  yEnd : l.yEndPos = y₀ + l.sy * -l.dy

theorem aims_lineParams {x₀ y₀ x₁ y₁ : ℤ} (hx : x₀ ≠ x₁) (hy : y₀ ≠ y₁) :
    Aims (lineParams x₀ y₀ x₁ y₁) x₀ y₀ := by
  constructor <;> simp only [lineParams] <;> split_ifs <;> omega

/-- The point is `a` steps along x and `b` steps along y from the start, and not behind the end. -/
def OnWay (l : LineParams) (x₀ y₀ : ℤ) (p : ℤ × ℤ) : Prop :=
  ∃ a b, (0 ≤ a ∧ a ≤ l.dx) ∧ (0 ≤ b ∧ b ≤ -l.dy) ∧ p = (x₀ + l.sx * a, y₀ + l.sy * b)

/-- What holds at the beginning of every round. -/
structure LineInv (l : LineParams) (x₀ y₀ : ℤ) (s : LineState) : Prop where
  onWay : OnWay l x₀ y₀ (s.x, s.y)
  errorLow : 3 * l.dy ≤ 2 * s.error1
  errorHigh : 2 * s.error1 ≤ 3 * l.dx
  drawn : ∀ p ∈ s.drawn, OnWay l x₀ y₀ p

variable {l : LineParams} {x₀ y₀ x₁ y₁ : ℤ} {s : LineState}

/-- Each step moves along x, along y, or along both. -/
theorem lineStep_eq (hl : Aims l x₀ y₀) (s : LineState) :
    (l.dx < 2 * s.error1 ∧ lineStep l s =
      ⟨s.x + l.sx, s.y, s.error1 + l.dy, s.drawn ++ [(s.x + l.sx, s.y)]⟩) ∨
    (2 * s.error1 < l.dy ∧ lineStep l s =
      ⟨s.x, s.y + l.sy, s.error1 + l.dx, s.drawn ++ [(s.x, s.y + l.sy)]⟩) ∨
    ((l.dy ≤ 2 * s.error1 ∧ 2 * s.error1 ≤ l.dx) ∧ lineStep l s =
      ⟨s.x + l.sx, s.y + l.sy, s.error1 + l.dy + l.dx,
        s.drawn ++ [(s.x + l.sx, s.y + l.sy)]⟩) := by
  have hdx := hl.dx_pos
  have hdy := hl.dy_neg
  by_cases hX : 2 * s.error1 ≥ l.dy
  · by_cases hY : 2 * s.error1 ≤ l.dx
    · refine .inr (.inr ⟨⟨hX, hY⟩, ?_⟩)
      simp only [lineStep, if_pos hX, if_pos hY]
    · refine .inl ⟨by omega, ?_⟩
      simp only [lineStep, if_pos hX, if_neg hY]
  · have hY : 2 * s.error1 ≤ l.dx := by omega
    refine .inr (.inl ⟨by omega, ?_⟩)
    simp only [lineStep, if_neg hX, if_pos hY]

theorem OnWay.moveX {x y : ℤ} (hl : Aims l x₀ y₀) (h : OnWay l x₀ y₀ (x, y)) (hx : x ≠ l.xEndPos) :
    OnWay l x₀ y₀ (x + l.sx, y) := by
  obtain ⟨a, b, ha, hb, hp⟩ := h
  obtain ⟨rfl, rfl⟩ := Prod.mk.inj hp
  have hne : a ≠ l.dx := by
    rintro rfl
    exact hx hl.xEnd.symm
  exact ⟨a + 1, b, by omega, hb, by rw [Int.mul_add, Int.mul_one, Int.add_assoc]⟩

theorem OnWay.moveY {x y : ℤ} (hl : Aims l x₀ y₀) (h : OnWay l x₀ y₀ (x, y)) (hy : y ≠ l.yEndPos) :
    OnWay l x₀ y₀ (x, y + l.sy) := by
  obtain ⟨a, b, ha, hb, hp⟩ := h
  obtain ⟨rfl, rfl⟩ := Prod.mk.inj hp
  have hne : b ≠ -l.dy := by
    rintro rfl
    exact hy hl.yEnd.symm
  exact ⟨a, b + 1, ha, by omega, by rw [Int.mul_add, Int.mul_one, Int.add_assoc]⟩

theorem OnWay.inRectangle {p : ℤ × ℤ} (hl : Aims l x₀ y₀) (h : OnWay l x₀ y₀ p) :
    InRectangle x₀ y₀ l.xEndPos l.yEndPos p := by
  obtain ⟨a, b, ha, hb, rfl⟩ := h
  rw [InRectangle, hl.xEnd, hl.yEnd]
  have hx : min x₀ (x₀ + l.sx * l.dx) ≤ x₀ + l.sx * a ∧
      x₀ + l.sx * a ≤ max x₀ (x₀ + l.sx * l.dx) := by
    rcases hl.sx with hsx | hsx <;> rw [hsx] <;> omega
  have hy : min y₀ (y₀ + l.sy * -l.dy) ≤ y₀ + l.sy * b ∧
      y₀ + l.sy * b ≤ max y₀ (y₀ + l.sy * -l.dy) := by
    rcases hl.sy with hsy | hsy <;> rw [hsy] <;> omega
  exact ⟨hx.1, hx.2, hy.1, hy.2⟩

/-- The steps that are still to be made. -/
def lineWork (l : LineParams) (s : LineState) : ℕ :=
  (l.xEndPos - s.x).natAbs + (l.yEndPos - s.y).natAbs

theorem lineInv_start (hl : Aims l x₀ y₀) : LineInv l x₀ y₀ (lineStart l x₀ y₀) := by
  have hdx := hl.dx_pos
  have hdy := hl.dy_neg
  have hstart : OnWay l x₀ y₀ (x₀, y₀) := ⟨0, 0, by omega, by omega, by simp⟩
  refine ⟨hstart, ?_, ?_, ?_⟩
  · simp only [lineStart]
    omega
  · simp only [lineStart]
    omega
  · intro p hp
    rw [List.mem_singleton.mp hp]
    exact hstart

/-- A round that goes on keeps the invariant, and comes closer to the end. -/
theorem lineInv_step (hl : Aims l x₀ y₀) (h : LineInv l x₀ y₀ s)
    (hgo : s.x ≠ l.xEndPos ∧ s.y ≠ l.yEndPos) :
    LineInv l x₀ y₀ (lineStep l s) ∧ lineWork l (lineStep l s) < lineWork l s := by
  have hdx := hl.dx_pos
  have hdy := hl.dy_neg
  have hlow := h.errorLow
  have hhigh := h.errorHigh
  have hdrawn : ∀ q, OnWay l x₀ y₀ q → ∀ p ∈ s.drawn ++ [q], OnWay l x₀ y₀ p := by
    intro q hq p hp
    rcases List.mem_append.mp hp with hp | hp
    · exact h.drawn p hp
    · rwa [List.mem_singleton.mp hp]
  have hcloserX : (l.xEndPos - (s.x + l.sx)).natAbs < (l.xEndPos - s.x).natAbs := by
    obtain ⟨a, b, ha, hb, hp⟩ := h.onWay
    have hx := (Prod.mk.inj hp).1
    have hend := hl.xEnd
    rcases hl.sx with hsx | hsx <;> rw [hsx] at hx hend ⊢ <;> omega
  have hcloserY : (l.yEndPos - (s.y + l.sy)).natAbs < (l.yEndPos - s.y).natAbs := by
    obtain ⟨a, b, ha, hb, hp⟩ := h.onWay
    have hy := (Prod.mk.inj hp).2
    have hend := hl.yEnd
    rcases hl.sy with hsy | hsy <;> rw [hsy] at hy hend ⊢ <;> omega
  rcases lineStep_eq hl s with ⟨herror, heq⟩ | ⟨herror, heq⟩ | ⟨herror, heq⟩
  · have hway := h.onWay.moveX hl hgo.1
    rw [heq]
    exact ⟨⟨hway, by dsimp only; omega, by dsimp only; omega, hdrawn _ hway⟩,
      Nat.add_lt_add_right hcloserX _⟩
  · have hway := h.onWay.moveY hl hgo.2
    rw [heq]
    exact ⟨⟨hway, by dsimp only; omega, by dsimp only; omega, hdrawn _ hway⟩,
      Nat.add_lt_add_left hcloserY _⟩
  · have hway := (h.onWay.moveX hl hgo.1).moveY hl hgo.2
    rw [heq]
    exact ⟨⟨hway, by dsimp only; omega, by dsimp only; omega, hdrawn _ hway⟩,
      Nat.add_lt_add hcloserX hcloserY⟩

theorem lineInv_visits (hl : Aims l x₀ y₀) (h : Visits (lineRound l) (lineStart l x₀ y₀) s) :
    LineInv l x₀ y₀ s := by
  apply h.invariant (lineInv_start hl)
  intro t u ht hu
  rw [lineRound] at hu
  split_ifs at hu with hgo
  cases hu
  exact (lineInv_step hl ht hgo).1

/-- The value is one of an `int`. -/
def FitsInt (v : ℤ) : Prop := -2 ^ 31 ≤ v ∧ v < 2 ^ 31

theorem fitsInt_toInt (v : BitVec 32) : FitsInt v.toInt := ⟨BitVec.le_toInt v, BitVec.toInt_lt⟩

theorem toInt32_of_fitsInt {v : ℤ} (h : FitsInt v) : toInt32 v = v := by
  obtain ⟨hlo, hhi⟩ := h
  rw [toInt32]
  omega

theorem fitsInt_toInt32 (v : ℤ) : FitsInt (toInt32 v) := by
  rw [FitsInt, toInt32]
  omega

/-- What is computed before the loop. -/
def LineParams.ints (l : LineParams) : List ℤ := [l.dx, -l.dy, l.dy, l.dx + l.dy]

/-- What is computed in a round: `error2`, and the other variables with each of their changes. -/
def roundInts (l : LineParams) (s : LineState) : List ℤ :=
  [2 * s.error1, s.error1 + l.dy, (lineStep l s).error1, (lineStep l s).x, (lineStep l s).y]

/-- On a line between two `int` points with both distances below `2 ^ 31 / 3`, every `int` that
`framebuffer_draw_line` computes is the integer. -/
theorem line_no_overflow (hx : x₀ ≠ x₁) (hy : y₀ ≠ y₁) (hx₀ : FitsInt x₀) (hx₁ : FitsInt x₁)
    (hy₀ : FitsInt y₀) (hy₁ : FitsInt y₁)
    (hsmall : 3 * max (x₁ - x₀).natAbs (y₁ - y₀).natAbs < 2 ^ 31) :
    (∀ v ∈ (lineParams x₀ y₀ x₁ y₁).ints, FitsInt v) ∧
    ∀ s, Visits (lineRound (lineParams x₀ y₀ x₁ y₁)) (lineStart (lineParams x₀ y₀ x₁ y₁) x₀ y₀) s →
      s.x ≠ x₁ ∧ s.y ≠ y₁ → ∀ v ∈ roundInts (lineParams x₀ y₀ x₁ y₁) s, FitsInt v := by
  have hl := aims_lineParams hx hy
  have hdx : (lineParams x₀ y₀ x₁ y₁).dx = (x₁ - x₀).natAbs := by
    simp only [lineParams]
    split_ifs <;> omega
  have hdy : (lineParams x₀ y₀ x₁ y₁).dy = -((y₁ - y₀).natAbs : ℤ) := by
    simp only [lineParams]
    split_ifs <;> omega
  constructor
  · simp only [LineParams.ints, List.forall_mem_cons, FitsInt, hdx, hdy, List.not_mem_nil,
      false_implies, implies_true, and_true]
    omega
  · intro s hs hgo
    have hinv := lineInv_visits hl hs
    have hstep := (lineInv_step hl hinv hgo).1
    obtain ⟨hxlo, hxhi, hylo, hyhi⟩ := hstep.onWay.inRectangle hl
    have hxEnd : (lineParams x₀ y₀ x₁ y₁).xEndPos = x₁ := rfl
    have hyEnd : (lineParams x₀ y₀ x₁ y₁).yEndPos = y₁ := rfl
    have hlow := hinv.errorLow
    have hhigh := hinv.errorHigh
    have hlow' := hstep.errorLow
    have hhigh' := hstep.errorHigh
    obtain ⟨hx₀lo, hx₀hi⟩ := hx₀
    obtain ⟨hx₁lo, hx₁hi⟩ := hx₁
    obtain ⟨hy₀lo, hy₀hi⟩ := hy₀
    obtain ⟨hy₁lo, hy₁hi⟩ := hy₁
    rw [hdx] at hhigh hhigh'
    rw [hdy] at hlow hlow'
    simp only [roundInts, List.forall_mem_cons, FitsInt, hdy, List.not_mem_nil, false_implies,
      implies_true, and_true]
    dsimp only at hxlo hxhi hylo hyhi
    omega

theorem exists_returns_line (hl : Aims l x₀ y₀) :
    ∃ drawn, Returns (lineRound l) (lineStart l x₀ y₀) drawn := by
  refine exists_returns_of_measure (lineWork l) (lineInv_start hl) ?_
  intro t ht
  by_cases hgo : t.x ≠ l.xEndPos ∧ t.y ≠ l.yEndPos
  · obtain ⟨hinv, hwork⟩ := lineInv_step hl ht hgo
    exact .inr ⟨lineStep l t, if_pos hgo, hinv, hwork⟩
  · exact .inl ⟨t.drawn, if_neg hgo⟩

theorem onWay_of_returns (hl : Aims l x₀ y₀) {drawn : List (ℤ × ℤ)}
    (h : Returns (lineRound l) (lineStart l x₀ y₀) drawn) : ∀ p ∈ drawn, OnWay l x₀ y₀ p := by
  obtain ⟨t, ht, hleave⟩ := h.exists_visits
  rw [lineRound] at hleave
  split_ifs at hleave
  cases hleave
  exact (lineInv_visits hl ht).drawn

/-- `lo, lo + 1, ..., hi` -/
def upTo (lo hi : ℤ) : List ℤ := (List.range (hi + 1 - lo).toNat).map fun i : ℕ => lo + i

theorem mem_upTo {lo hi v : ℤ} : v ∈ upTo lo hi ↔ lo ≤ v ∧ v ≤ hi := by
  simp only [upTo, List.mem_map, List.mem_range]
  constructor
  · rintro ⟨i, hi, rfl⟩
    omega
  · intro h
    exact ⟨(v - lo).toNat, by omega, by omega⟩

section

variable {pixel : ℤ → ℤ × ℤ} {lo hi : ℤ} {drawn : List (ℤ × ℤ)}

/-- The loop draws one pixel after the other, and leaves behind the last. -/
theorem straightLine_upTo (hlo : FitsInt lo) (hle : lo ≤ hi) (hhi : hi < 2147483647) :
    StraightLine pixel lo hi ((upTo lo hi).map pixel) := by
  obtain ⟨n, hn⟩ := Int.eq_ofNat_of_zero_le (show 0 ≤ hi + 1 - lo by omega)
  let path : ℕ → StraightState := fun k =>
    ⟨lo + k, (List.range k).map fun i : ℕ => pixel (lo + i)⟩
  have hgo : ∀ k < n, straightRound pixel hi (path k) = .goOn (path (k + 1)) := by
    intro k hk
    have hnext : toInt32 (lo + k + 1) = lo + (k + 1 : ℕ) := by
      rw [toInt32_of_fitsInt ⟨by have := hlo.1; omega, by omega⟩]
      push_cast
      ring
    rw [straightRound, if_pos (by dsimp only [path]; omega)]
    dsimp only [path]
    rw [hnext, List.range_succ, List.map_append, List.map_singleton]
  have hleave : straightRound pixel hi (path n) = .leave (path n).drawn :=
    if_neg (by dsimp only [path]; omega)
  have hdrawn : (upTo lo hi).map pixel = (path n).drawn := by
    rw [upTo, hn, Int.toNat_natCast, List.map_map]
    rfl
  have hstart : path 0 = ⟨lo, []⟩ := by
    dsimp only [path]
    rw [Nat.cast_zero, Int.add_zero]
    rfl
  rw [StraightLine, hdrawn, ← hstart]
  exact (visits_of_path hgo).returns (returns_of_leave hleave)

/-- Behind the largest `int` comes the smallest one, so a loop up to it has no end. -/
theorem not_straightLine_intMax (hlo : lo ≤ 2147483647) : ¬ StraightLine pixel lo 2147483647 drawn := by
  refine not_returns_of_invariant (P := fun s => s.i ≤ 2147483647) hlo ?_
  intro s hs
  have hnext := (fitsInt_toInt32 (s.i + 1)).2
  exact ⟨_, if_pos hs, by dsimp only; omega⟩

theorem straightLine_iff (hlo : FitsInt lo) (hhi : FitsInt hi) (hle : lo ≤ hi) :
    StraightLine pixel lo hi drawn ↔ hi ≠ 2147483647 ∧ drawn = (upTo lo hi).map pixel := by
  obtain ⟨_, hhi⟩ := hhi
  by_cases hmax : hi = 2147483647
  · subst hmax
    exact iff_of_false (not_straightLine_intMax hle) fun h => h.1 rfl
  · have hreturns : StraightLine pixel lo hi ((upTo lo hi).map pixel) :=
      straightLine_upTo hlo hle (by omega)
    constructor
    · intro h
      exact ⟨hmax, Returns.unique h hreturns⟩
    · rintro ⟨_, rfl⟩
      exact hreturns

/-- The counter of a loop that does not go up to the largest `int` never gets behind it. -/
theorem straight_no_overflow (hlo : FitsInt lo) (hhi : hi < 2147483647) {s : StraightState}
    (h : Visits (straightRound pixel hi) ⟨lo, []⟩ s) (hgo : s.i ≤ hi) : FitsInt (s.i + 1) := by
  have hlow : -2 ^ 31 ≤ s.i := by
    refine h.invariant (P := fun s => -2 ^ 31 ≤ s.i) hlo.1 ?_
    intro t u _ hu
    rw [straightRound] at hu
    split_ifs at hu
    cases hu
    exact (fitsInt_toInt32 _).1
  rw [FitsInt]
  omega

end

/-- The values between two others, from the smaller one on. -/
def between (a b : ℤ) : List ℤ := if a < b then upTo a b else upTo b a

theorem mem_between {a b v : ℤ} : v ∈ between a b ↔ min a b ≤ v ∧ v ≤ max a b := by
  rw [between]
  split_ifs <;> rw [mem_upTo] <;> omega

/-- A line that is parallel to an axis, and counts up to the largest `int` on the way. -/
def CountsToIntMax (x₀ y₀ x₁ y₁ : ℤ) : Prop :=
  x₀ = x₁ ∧ max y₀ y₁ = 2147483647 ∨ x₀ ≠ x₁ ∧ y₀ = y₁ ∧ max x₀ x₁ = 2147483647

theorem framebufferDrawLine_vertical {x : ℤ} {drawn : List (ℤ × ℤ)} (hy₀ : FitsInt y₀)
    (hy₁ : FitsInt y₁) : FramebufferDrawLine x y₀ x y₁ drawn ↔
      max y₀ y₁ ≠ 2147483647 ∧ drawn = (between y₀ y₁).map fun y => (x, y) := by
  rw [FramebufferDrawLine, if_pos rfl, between]
  split_ifs with hlt
  · rw [straightLine_iff hy₀ hy₁ hlt.le, max_eq_right hlt.le]
  · rw [straightLine_iff hy₁ hy₀ (by omega), max_eq_left (by omega)]

theorem framebufferDrawLine_horizontal {y : ℤ} {drawn : List (ℤ × ℤ)} (hne : x₀ ≠ x₁)
    (hx₀ : FitsInt x₀) (hx₁ : FitsInt x₁) : FramebufferDrawLine x₀ y x₁ y drawn ↔
      max x₀ x₁ ≠ 2147483647 ∧ drawn = (between x₀ x₁).map fun x => (x, y) := by
  rw [FramebufferDrawLine, if_neg hne, if_pos rfl, between]
  split_ifs with hlt
  · rw [straightLine_iff hx₀ hx₁ hlt.le, max_eq_right hlt.le]
  · rw [straightLine_iff hx₁ hx₀ (by omega), max_eq_left (by omega)]

theorem exists_framebufferDrawLine_iff (hx₀ : FitsInt x₀) (hy₀ : FitsInt y₀) (hx₁ : FitsInt x₁)
    (hy₁ : FitsInt y₁) :
    (∃ drawn, FramebufferDrawLine x₀ y₀ x₁ y₁ drawn) ↔ ¬ CountsToIntMax x₀ y₀ x₁ y₁ := by
  rw [CountsToIntMax]
  by_cases hx : x₀ = x₁
  · subst hx
    simp only [framebufferDrawLine_vertical hy₀ hy₁, exists_and_left, exists_eq, and_true]
    simp
  · by_cases hy : y₀ = y₁
    · subst hy
      simp only [framebufferDrawLine_horizontal hx hx₀ hx₁, exists_and_left, exists_eq, and_true]
      simp [hx]
    · obtain ⟨drawn, hdrawn⟩ := exists_returns_line (aims_lineParams hx hy)
      refine iff_of_true ⟨drawn, by rwa [FramebufferDrawLine, if_neg hx, if_neg hy]⟩ ?_
      simp [hx, hy]

theorem inRectangle_of_drawn (hx₀ : FitsInt x₀) (hy₀ : FitsInt y₀) (hx₁ : FitsInt x₁)
    (hy₁ : FitsInt y₁) {drawn : List (ℤ × ℤ)} (h : FramebufferDrawLine x₀ y₀ x₁ y₁ drawn) :
    ∀ p ∈ drawn, InRectangle x₀ y₀ x₁ y₁ p := by
  intro p hp
  by_cases hx : x₀ = x₁
  · subst hx
    rw [((framebufferDrawLine_vertical hy₀ hy₁).mp h).2] at hp
    obtain ⟨v, hv, rfl⟩ := List.mem_map.mp hp
    have hv := mem_between.mp hv
    simp only [InRectangle]
    omega
  · by_cases hy : y₀ = y₁
    · subst hy
      rw [((framebufferDrawLine_horizontal hx hx₀ hx₁).mp h).2] at hp
      obtain ⟨v, hv, rfl⟩ := List.mem_map.mp hp
      have hv := mem_between.mp hv
      simp only [InRectangle]
      omega
    · rw [FramebufferDrawLine, if_neg hx, if_neg hy] at h
      have hl := aims_lineParams hx hy
      exact (onWay_of_returns hl h p hp).inRectangle hl

/-- What is drawn on the screen stays on the screen. -/
theorem drawPixels_frame {s : Screen} {color : BitVec 32} {fb : Pixels} {drawn : List (ℤ × ℤ)}
    (h : ∀ p ∈ drawn, s.Visible p.1 p.2) {i : ℤ} (hi : ∀ x y, s.Visible x y → i ≠ s.fbIndex x y) :
    drawPixels s color fb drawn i = fb i := by
  induction drawn generalizing fb with
  | nil => rfl
  | cons p drawn ih =>
    have hp : i ≠ s.fbIndex p.1 p.2 := hi p.1 p.2 (h p List.mem_cons_self)
    calc drawPixels s color fb (p :: drawn) i
        = drawPixels s color (framebufferDrawPixel s color fb p) drawn i := rfl
      _ = framebufferDrawPixel s color fb p i := ih fun q hq => h q (List.mem_cons_of_mem p hq)
      _ = fb i := if_neg hp

/-- A visible pixel lies within the `height * pitch` bytes of the framebuffer. -/
theorem fbIndex_mem {s : Screen} (hs : s.PitchFits) {x y : ℤ} (hv : s.Visible x y) :
    0 ≤ 4 * s.fbIndex x y ∧ 4 * s.fbIndex x y + 4 ≤ s.fbHeight.toNat * s.fbPitch.toNat := by
  obtain ⟨hx, hxW, hy, hyH⟩ := hv
  rw [Screen.PitchFits] at hs
  rw [Gfx.width] at hxW
  rw [Gfx.height] at hyH
  have hline : 0 ≤ y * (s.fbPitch.toNat / 4 : ℕ) := Int.mul_nonneg hy (by omega)
  have hlast : (y + 1) * s.fbPitch.toNat ≤ s.fbHeight.toNat * s.fbPitch.toNat :=
    Int.mul_le_mul_of_nonneg_right (by omega) (by omega)
  have hpitch : y * (4 * (s.fbPitch.toNat / 4 : ℕ)) ≤ y * s.fbPitch.toNat :=
    Int.mul_le_mul_of_nonneg_left (by omega) hy
  rw [Screen.fbIndex]
  constructor <;> linarith

/-- `framebuffer_draw_line` returns. What it draws lies in the rectangle of the two points, and if
these are on the screen, it writes to no pixel that is not, and to no byte outside the
framebuffer. -/
structure DrawsInside (x₀ y₀ x₁ y₁ : ℤ) : Prop where
  returns : ∃ drawn, FramebufferDrawLine x₀ y₀ x₁ y₁ drawn
  rectangle : ∀ drawn, FramebufferDrawLine x₀ y₀ x₁ y₁ drawn →
    ∀ p ∈ drawn, InRectangle x₀ y₀ x₁ y₁ p
  onScreen : ∀ drawn, FramebufferDrawLine x₀ y₀ x₁ y₁ drawn → ∀ (s : Screen) (color : BitVec 32)
    (fb : Pixels), s.Visible x₀ y₀ → s.Visible x₁ y₁ → ∀ i,
      (∀ x y, s.Visible x y → i ≠ s.fbIndex x y) → drawPixels s color fb drawn i = fb i
  inMemory : ∀ drawn, FramebufferDrawLine x₀ y₀ x₁ y₁ drawn → ∀ (s : Screen) (color : BitVec 32)
    (fb : Pixels), s.Visible x₀ y₀ → s.Visible x₁ y₁ → s.PitchFits → ∀ i : ℤ,
      4 * i < 0 ∨ s.fbHeight.toNat * s.fbPitch.toNat < 4 * i + 4 →
        drawPixels s color fb drawn i = fb i

theorem drawsInside_of_returns (hx₀ : FitsInt x₀) (hy₀ : FitsInt y₀) (hx₁ : FitsInt x₁)
    (hy₁ : FitsInt y₁) (h : ∃ drawn, FramebufferDrawLine x₀ y₀ x₁ y₁ drawn) :
    DrawsInside x₀ y₀ x₁ y₁ := by
  have hvisible : ∀ drawn, FramebufferDrawLine x₀ y₀ x₁ y₁ drawn → ∀ s : Screen,
      s.Visible x₀ y₀ → s.Visible x₁ y₁ → ∀ p ∈ drawn, s.Visible p.1 p.2 := by
    intro drawn hdrawn s hstart hend p hp
    obtain ⟨hxlo, hxhi, hylo, hyhi⟩ := inRectangle_of_drawn hx₀ hy₀ hx₁ hy₁ hdrawn p hp
    simp only [Gfx.Visible] at hstart hend ⊢
    omega
  refine ⟨h, fun drawn => inRectangle_of_drawn hx₀ hy₀ hx₁ hy₁, ?_, ?_⟩
  · intro drawn hdrawn s color fb hstart hend i hi
    exact drawPixels_frame (hvisible drawn hdrawn s hstart hend) hi
  · intro drawn hdrawn s color fb hstart hend hs i hi
    refine drawPixels_frame (hvisible drawn hdrawn s hstart hend) ?_
    rintro x y hv rfl
    have hmem := fbIndex_mem hs hv
    omega

/-- Line drawing ends, inside the rectangle of the two points, unless the line is parallel to an
axis and its larger coordinate is the largest `int`. -/
theorem framebufferDrawLine_inside (x₀ y₀ x₁ y₁ : BitVec 32) :
    DrawsInside x₀.toInt y₀.toInt x₁.toInt y₁.toInt ↔
      ¬ CountsToIntMax x₀.toInt y₀.toInt x₁.toInt y₁.toInt := by
  have hreturns := exists_framebufferDrawLine_iff (fitsInt_toInt x₀) (fitsInt_toInt y₀)
    (fitsInt_toInt x₁) (fitsInt_toInt y₁)
  constructor
  · intro h
    exact hreturns.mp h.returns
  · intro h
    exact drawsInside_of_returns (fitsInt_toInt x₀) (fitsInt_toInt y₀) (fitsInt_toInt x₁)
      (fitsInt_toInt y₁) (hreturns.mpr h)

/-- The loop of a vertical line over two pixels that never ends. -/
theorem line_never_ends : ¬ DrawsInside 0 2147483646 0 2147483647 := by
  intro h
  obtain ⟨drawn, hdrawn⟩ := h.returns
  rw [FramebufferDrawLine, if_pos rfl, if_pos (by decide)] at hdrawn
  exact not_straightLine_intMax (by decide) hdrawn

end KnutOS
