import KnutOS.Devices.Framebuffer
import Mathlib.Tactic.SplitIfs

/-! Where the cursor of the console goes, and how often the screen scrolls. -/
namespace KnutOS

/-- Successive calls of `framebuffer_print_string`. -/
def printStrings {σ : Type} (g : Gfx) (C : Canvas σ) (c : Console σ)
    (calls : List (List Char × BitVec 32)) : Console σ :=
  calls.foldl (fun c call => framebufferPrintString g C c call.1 call.2) c

/-- `f` takes what one canvas shows to what another one shows. -/
structure Canvas.Hom {σ τ : Type} (C : Canvas σ) (D : Canvas τ) (f : σ → τ) : Prop where
  putGlyph : ∀ s x y unicode fg, f (C.putGlyph s x y unicode fg) = D.putGlyph (f s) x y unicode fg
  moveOneRowUp : ∀ s, f (C.moveOneRowUp s) = D.moveOneRowUp (f s)

/-- The same drawing, with a count of the scrolls. -/
def Canvas.counting {σ : Type} (C : Canvas σ) : Canvas (σ × ℕ) where
  putGlyph s x y unicode fg := (C.putGlyph s.1 x y unicode fg, s.2)
  moveOneRowUp s := (C.moveOneRowUp s.1, s.2 + 1)

theorem Canvas.counting_hom {σ : Type} (C : Canvas σ) : C.counting.Hom C Prod.fst :=
  ⟨fun _ _ _ _ _ => rfl, fun _ => rfl⟩

namespace Console

def map {σ τ : Type} (f : σ → τ) (c : Console σ) : Console τ := ⟨c.x, c.y, c.fg, f c.canvas⟩

/-- Without the count. -/
def plain {σ : Type} (c : Console (σ × ℕ)) : Console σ := ⟨c.x, c.y, c.fg, c.canvas.1⟩

/-! What is drawn on acts on nothing else. -/

section

variable {σ τ : Type} {C : Canvas σ} {D : Canvas τ} {f : σ → τ} (g : Gfx) (c : Console σ)

theorem map_ssfnPutc (h : C.Hom D f) (unicode : Char) :
    (ssfnPutc C c unicode).map f = ssfnPutc D (c.map f) unicode := by
  rw [ssfnPutc, ssfnPutc]
  split_ifs
  · rfl
  · rfl
  · simp [map, h.putGlyph]

theorem map_placeCursor (h : C.Hom D f) (x y : ℤ) :
    (placeCursor g C c x y).map f = placeCursor g D (c.map f) x y := by
  simp only [placeCursor]
  split_ifs <;> simp [map, h.moveOneRowUp]

theorem map_eraseChar (h : C.Hom D f) : (eraseChar g C c).map f = eraseChar g D (c.map f) := by
  by_cases hx : c.x = 0
  · by_cases hy : c.y = 0
    · rw [eraseChar, eraseChar, if_pos hx, if_pos hy, if_pos (show (c.map f).x = 0 from hx),
        if_pos (show (c.map f).y = 0 from hy)]
    · rw [eraseChar, eraseChar, if_pos hx, if_neg hy, if_pos (show (c.map f).x = 0 from hx),
        if_neg (show ¬ (c.map f).y = 0 from hy)]
      exact congrArg (fun d : Console τ => { d with x := toInt16 (d.x - glyphWidth) })
        (map_ssfnPutc _ h ' ')
  · rw [eraseChar, eraseChar, if_neg hx, if_neg (show ¬ (c.map f).x = 0 from hx)]
    exact congrArg (fun d : Console τ => { d with x := toInt16 (d.x - glyphWidth) })
      (map_ssfnPutc _ h ' ')

theorem map_printOne (h : C.Hom D f) (unicode : Char) (x y : ℤ) (fg : BitVec 32) :
    (printOne g C c unicode x y fg).map f = printOne g D (c.map f) unicode x y fg := by
  rw [printOne, printOne, ← map_placeCursor g c h]
  split_ifs
  · exact map_eraseChar g _ h
  · exact map_ssfnPutc _ h _

theorem map_framebufferPrintChar (h : C.Hom D f) (unicode : Char) (x y : ℤ) (fg : BitVec 32) :
    (framebufferPrintChar g C c unicode x y fg).map f =
      framebufferPrintChar g D (c.map f) unicode x y fg := by
  have hspace : Function.Semiconj (map f)
      (fun c => printOne g C c ' ' c.x c.y fg) (fun c => printOne g D c ' ' c.x c.y fg) :=
    fun c => map_printOne g c h ' ' c.x c.y fg
  rw [framebufferPrintChar, framebufferPrintChar, ← map_placeCursor g c h]
  split_ifs
  · exact hspace.iterate_right 4 _
  · exact map_printOne g c h unicode x y fg

theorem map_framebufferPrintString (h : C.Hom D f) (string : List Char) (fg : BitVec 32) :
    (framebufferPrintString g C c string fg).map f =
      framebufferPrintString g D (c.map f) string fg := by
  have hchar : ∀ (c : Console σ) unicode,
      framebufferPrintChar g D (c.map f) unicode (c.map f).x (c.map f).y fg =
        (framebufferPrintChar g C c unicode c.x c.y fg).map f :=
    fun c unicode => (map_framebufferPrintChar g c h unicode c.x c.y fg).symm
  exact (List.foldl_hom (map f) hchar).symm

end

/-- The count changes nothing else. -/
theorem plain_framebufferPrintString {σ : Type} (g : Gfx) (C : Canvas σ) (c : Console (σ × ℕ))
    (string : List Char) (fg : BitVec 32) :
    (framebufferPrintString g C.counting c string fg).plain =
      framebufferPrintString g C c.plain string fg :=
  map_framebufferPrintString g c C.counting_hom string fg

/-- The cursor is at `(x, y)`, and the screen has scrolled `n` times. -/
def At {σ : Type} (c : Console (σ × ℕ)) (x y : ℤ) (n : ℕ) : Prop :=
  c.x = x ∧ c.y = y ∧ c.canvas.2 = n

variable {σ : Type} {g : Gfx} {C : Canvas σ} {c : Console (σ × ℕ)} {x y v : ℤ} {n k : ℕ}
  {unicode : Char} {fg : BitVec 32}

theorem toInt16_eq (hlo : -2 ^ 15 ≤ v) (hhi : v < 2 ^ 15) : toInt16 v = v := by
  rw [toInt16]
  omega

theorem toInt16_bounds (v : ℤ) : -2 ^ 15 ≤ toInt16 v ∧ toInt16 v < 2 ^ 15 := by
  rw [toInt16]
  omega

/-- The coordinates are those of an `int16_t`. -/
structure InRange (x y : ℤ) : Prop where
  left : -2 ^ 15 ≤ x
  right : x < 2 ^ 15
  top : -2 ^ 15 ≤ y
  bottom : y < 2 ^ 15

/-- A cursor with room for a glyph stays. -/
theorem placeCursor_stay {τ : Type} {D : Canvas τ} {d : Console τ} (hr : InRange d.x d.y)
    (hfit : d.x + 8 ≤ g.width) (hrow : d.y < g.height) : placeCursor g D d d.x d.y = d := by
  have hnarrow : ¬ d.x + glyphWidth > g.width := Int.not_lt.mpr hfit
  have hlow : ¬ d.y ≥ g.height := Int.not_le.mpr hrow
  simp only [placeCursor, toInt16_eq hr.left hr.right, toInt16_eq hr.top hr.bottom, if_neg hnarrow,
    if_neg hlow]

/-- A full line goes on in the next one. -/
theorem placeCursor_next {τ : Type} {D : Canvas τ} {d : Console τ} (hr : InRange d.x d.y)
    (hover : g.width < d.x + 8) (hrow : d.y + 16 < g.height) (hy : d.y + 16 < 2 ^ 15) :
    placeCursor g D d d.x d.y = { d with x := 0, y := d.y + 16 } := by
  have hwide : d.x + glyphWidth > g.width := hover
  have hy16 : toInt16 (d.y + glyphHeight) = d.y + 16 :=
    toInt16_eq (Int.le_trans hr.top (Int.le_add_of_nonneg_right (by decide))) hy
  have hlow : ¬ d.y + 16 ≥ g.height := Int.not_le.mpr hrow
  simp only [placeCursor, toInt16_eq hr.left hr.right, toInt16_eq hr.top hr.bottom, if_pos hwide,
    hy16, if_neg hlow]

/-- A full line at the bottom scrolls. -/
theorem placeCursor_bottom {τ : Type} {D : Canvas τ} {d : Console τ} (hr : InRange d.x d.y)
    (hover : g.width < d.x + 8) (hrow : g.height ≤ d.y + 16) (hy : d.y + 16 < 2 ^ 15)
    (hH : 0 ≤ g.height) : placeCursor g D d d.x d.y =
      { d with x := 0, y := g.height - 16, canvas := D.moveOneRowUp d.canvas } := by
  have hwide : d.x + glyphWidth > g.width := hover
  have hy16 : toInt16 (d.y + glyphHeight) = d.y + 16 :=
    toInt16_eq (Int.le_trans hr.top (Int.le_add_of_nonneg_right (by decide))) hy
  have hlow : d.y + 16 ≥ g.height := hrow
  have hbottom : toInt16 (g.height - glyphHeight) = g.height - 16 :=
    toInt16_eq (by rw [glyphHeight]; omega) (by rw [glyphHeight]; omega)
  simp only [placeCursor, toInt16_eq hr.left hr.right, toInt16_eq hr.top hr.bottom, if_pos hwide,
    hy16, if_pos hlow, hbottom]

/-- A line below the screen scrolls too. -/
theorem placeCursor_below {τ : Type} {D : Canvas τ} {d : Console τ} (hr : InRange d.x d.y)
    (hfit : d.x + 8 ≤ g.width) (hrow : g.height ≤ d.y) (hH : 0 ≤ g.height) :
    placeCursor g D d d.x d.y =
      { d with x := 0, y := g.height - 16, canvas := D.moveOneRowUp d.canvas } := by
  have hbottom := hr.bottom
  have hnarrow : ¬ d.x + glyphWidth > g.width := Int.not_lt.mpr hfit
  have hlow : d.y ≥ g.height := hrow
  have hlast : toInt16 (g.height - glyphHeight) = g.height - 16 :=
    toInt16_eq (by rw [glyphHeight]; omega) (by rw [glyphHeight]; omega)
  simp only [placeCursor, toInt16_eq hr.left hr.right, toInt16_eq hr.top hr.bottom, if_neg hnarrow,
    if_pos hlow, hlast]

/-- The cursor stays, goes on in the next line, or scrolls. -/
theorem placeCursor_cases {τ : Type} {D : Canvas τ} {d : Console τ} (hr : InRange d.x d.y)
    (hH : 0 ≤ g.height) (hbelow : g.width < d.x + 8 → d.y + 16 < 2 ^ 15)
    (hbottom : g.height ≤ d.y → d.x + 8 ≤ g.width) :
    (d.x + 8 ≤ g.width ∧ d.y < g.height ∧ placeCursor g D d d.x d.y = d) ∨
    (g.width < d.x + 8 ∧ d.y + 16 < g.height ∧
      placeCursor g D d d.x d.y = { d with x := 0, y := d.y + 16 }) ∨
    ((d.y < g.height → g.width < d.x + 8) ∧ g.height ≤ d.y + 16 ∧ placeCursor g D d d.x d.y =
      { d with x := 0, y := g.height - 16, canvas := D.moveOneRowUp d.canvas }) := by
  by_cases hfit : d.x + 8 ≤ g.width
  · by_cases hlow : d.y < g.height
    · exact .inl ⟨hfit, hlow, placeCursor_stay hr hfit hlow⟩
    · exact .inr (.inr ⟨fun hlow' => absurd hlow' hlow, by omega,
        placeCursor_below hr hfit (by omega) hH⟩)
  · have hlow : d.y < g.height := by
      by_contra hlow
      exact hfit (hbottom (by omega))
    have hover : g.width < d.x + 8 := by omega
    by_cases hnext : d.y + 16 < g.height
    · exact .inr (.inl ⟨hover, hnext, placeCursor_next hr hover hnext (hbelow hover)⟩)
    · exact .inr (.inr ⟨fun _ => hover, by omega,
        placeCursor_bottom hr hover (by omega) (hbelow hover) hH⟩)

theorem placeCursor_wrap (h : c.At x y n) (hr : InRange x y) (hover : g.width < x + 8)
    (hrow : y + 16 < g.height) (hy : y + 16 < 2 ^ 15) :
    (placeCursor g C.counting c c.x c.y).At 0 (y + 16) n := by
  obtain ⟨rfl, rfl, rfl⟩ := h
  rw [placeCursor_next hr hover hrow hy]
  exact ⟨rfl, rfl, rfl⟩

theorem placeCursor_scroll (h : c.At x y n) (hr : InRange x y) (hover : g.width < x + 8)
    (hrow : g.height ≤ y + 16) (hy : y + 16 < 2 ^ 15) (hH : 0 ≤ g.height) :
    (placeCursor g C.counting c c.x c.y).At 0 (g.height - 16) (n + 1) := by
  obtain ⟨rfl, rfl, rfl⟩ := h
  rw [placeCursor_bottom hr hover hrow hy hH]
  exact ⟨rfl, rfl, rfl⟩

/-- A character with a glyph of its own. -/
def Printable (unicode : Char) : Prop := ' ' ≤ unicode ∧ unicode ≤ '~'

instance (unicode : Char) : Decidable (Printable unicode) := inferInstanceAs (Decidable (_ ∧ _))

/-- The character is none of those that move the cursor in another way. -/
def Glyph (unicode : Char) : Prop :=
  unicode ≠ '\r' ∧ unicode ≠ '\n' ∧ unicode ≠ '\t' ∧ unicode ≠ '\x08'

instance (unicode : Char) : Decidable (Glyph unicode) := inferInstanceAs (Decidable (_ ∧ _))

theorem Printable.glyph (h : Printable unicode) : Glyph unicode := by
  refine ⟨?_, ?_, ?_, ?_⟩ <;>
    · rintro rfl
      exact absurd h (by decide)

theorem printOne_glyph {τ : Type} {D : Canvas τ} {d : Console τ} (hu : Glyph unicode) :
    printOne g D d unicode x y fg = ssfnPutc D { placeCursor g D d x y with fg := fg } unicode :=
  if_neg hu.2.2.2

theorem ssfnPutc_eq {τ : Type} (D : Canvas τ) (d : Console τ) (hu : Glyph unicode) :
    ssfnPutc D d unicode =
      { d with x := toInt16 (d.x + 8), canvas := D.putGlyph d.canvas d.x d.y unicode d.fg } := by
  rw [ssfnPutc, if_neg hu.1, if_neg hu.2.1]

/-- A glyph moves a cursor in its place by its own width. -/
theorem ssfnPutc_glyph (h : c.At x y n) (hu : Glyph unicode) (hlo : -2 ^ 15 ≤ x)
    (hx : x + 8 < 2 ^ 15) :
    (ssfnPutc C.counting { c with fg := fg } unicode).At (x + 8) y n := by
  obtain ⟨rfl, rfl, rfl⟩ := h
  rw [ssfnPutc_eq _ _ hu]
  exact ⟨toInt16_eq (show -2 ^ 15 ≤ c.x + 8 by omega) hx, rfl, rfl⟩

theorem printOne_stay (h : c.At x y n) (hr : InRange x y) (hu : Glyph unicode)
    (hfit : x + 8 ≤ g.width) (hrow : y < g.height) (hx : x + 8 < 2 ^ 15) :
    (printOne g C.counting c unicode c.x c.y fg).At (x + 8) y n := by
  rw [printOne_glyph hu]
  obtain ⟨rfl, rfl, rfl⟩ := h
  rw [placeCursor_stay hr hfit hrow]
  exact ssfnPutc_glyph ⟨rfl, rfl, rfl⟩ hu hr.left hx

theorem printOne_wrap (h : c.At x y n) (hr : InRange x y) (hu : Glyph unicode)
    (hover : g.width < x + 8) (hrow : y + 16 < g.height) (hy : y + 16 < 2 ^ 15) :
    (printOne g C.counting c unicode c.x c.y fg).At 8 (y + 16) n := by
  rw [printOne_glyph hu]
  exact ssfnPutc_glyph (placeCursor_wrap h hr hover hrow hy) hu (by decide) (by decide)

theorem printOne_scroll (h : c.At x y n) (hr : InRange x y) (hu : Glyph unicode)
    (hover : g.width < x + 8) (hrow : g.height ≤ y + 16) (hy : y + 16 < 2 ^ 15)
    (hH : 0 ≤ g.height) :
    (printOne g C.counting c unicode c.x c.y fg).At 8 (g.height - 16) (n + 1) := by
  rw [printOne_glyph hu]
  exact ssfnPutc_glyph (placeCursor_scroll h hr hover hrow hy hH) hu (by decide) (by decide)

theorem printChar_glyph {τ : Type} {D : Canvas τ} {d : Console τ} (hu : Glyph unicode) :
    framebufferPrintChar g D d unicode x y fg = printOne g D d unicode x y fg := if_neg hu.2.2.1

theorem printString_cons {τ : Type} (D : Canvas τ) (d : Console τ) (hu : Glyph unicode)
    (l : List Char) :
    framebufferPrintString g D d (unicode :: l) fg =
      framebufferPrintString g D (printOne g D d unicode d.x d.y fg) l fg := by
  rw [← printChar_glyph hu]
  rfl

/-- As long as the line has room, a string of glyphs stays on it. -/
theorem printString_stay {l : List Char} (h : c.At x y n) (hr : InRange x y) (hl : ∀ u ∈ l, Glyph u)
    (hfit : x + 8 * l.length ≤ g.width) (hrow : y < g.height) (hx : x + 8 * l.length < 2 ^ 15) :
    (framebufferPrintString g C.counting c l fg).At (x + 8 * l.length) y n := by
  induction l generalizing c x with
  | nil => simpa [framebufferPrintString] using h
  | cons u l ih =>
    rw [List.length_cons] at hfit hx ⊢
    have hleft := hr.left
    have hu := hl u List.mem_cons_self
    have hfirst : (printOne g C.counting c u c.x c.y fg).At (x + 8) y n :=
      printOne_stay h hr hu (by omega) hrow (by omega)
    rw [printString_cons _ _ hu,
      show x + 8 * ((l.length + 1 : ℕ) : ℤ) = x + 8 + 8 * l.length by omega]
    exact ih hfirst ⟨by omega, by omega, hr.top, hr.bottom⟩
      (fun u hu => hl u (List.mem_cons_of_mem _ hu)) (by omega) (by omega)

/-- The same character `k` times. -/
def printMany {τ : Type} (g : Gfx) (D : Canvas τ) (unicode : Char) (fg : BitVec 32) (k : ℕ)
    (d : Console τ) : Console τ := (fun d => printOne g D d unicode d.x d.y fg)^[k] d

theorem printMany_succ {τ : Type} (D : Canvas τ) (k : ℕ) (d : Console τ) :
    printMany g D unicode fg (k + 1) d =
      printOne g D (printMany g D unicode fg k d) unicode (printMany g D unicode fg k d).x
        (printMany g D unicode fg k d).y fg := Function.iterate_succ_apply' _ k d

theorem printMany_add {τ : Type} (D : Canvas τ) (j k : ℕ) (d : Console τ) :
    printMany g D unicode fg (j + k) d =
      printMany g D unicode fg j (printMany g D unicode fg k d) :=
  Function.iterate_add_apply _ j k d

theorem printString_replicate {τ : Type} (D : Canvas τ) (d : Console τ) (hu : Glyph unicode)
    (k : ℕ) : framebufferPrintString g D d (List.replicate k unicode) fg = printMany g D unicode fg k d := by
  induction k generalizing d with
  | zero => rfl
  | succ k ih =>
    rw [List.replicate_succ, printString_cons _ _ hu, ih]
    rfl

theorem printMany_stay (h : c.At x y n) (hr : InRange x y) (hu : Glyph unicode)
    (hfit : x + 8 * k ≤ g.width) (hrow : y < g.height) (hx : x + 8 * k < 2 ^ 15) :
    (printMany g C.counting unicode fg k c).At (x + 8 * k) y n := by
  have hall : ∀ u ∈ List.replicate k unicode, Glyph u := by
    intro u hmem
    rwa [List.eq_of_mem_replicate hmem]
  have hlen : (List.replicate k unicode).length = k := List.length_replicate
  have hstring : (framebufferPrintString g C.counting c (List.replicate k unicode) fg).At
      (x + 8 * (List.replicate k unicode).length) y n :=
    printString_stay h hr hall (by rwa [hlen]) hrow (by rwa [hlen])
  rwa [printString_replicate _ _ hu, hlen] at hstring

/-- What is left of a run of glyphs once the line is full: one glyph that goes to the next line, and
the others behind it. -/
theorem printMany_over (C : Canvas σ) (fg : BitVec 32) (h : c.At x y n) (hr : InRange x y)
    (hu : Glyph unicode) (hx0 : 0 ≤ x) (hright : x ≤ g.width) (hover : g.width < x + 8 * k)
    (hrow : y < g.height) (hx : x + 8 * k < 2 ^ 15) :
    ∃ j m : ℕ, k = m + 1 + j ∧ g.width < x + 8 * j + 8 ∧ InRange (x + 8 * j) y ∧
      (printMany g C.counting unicode fg j c).At (x + 8 * j) y n := by
  refine ⟨((g.width - x) / 8).toNat, k - 1 - ((g.width - x) / 8).toNat, by omega, by omega,
    ⟨by omega, by omega, hr.top, hr.bottom⟩, ?_⟩
  exact printMany_stay h hr hu (by omega) hrow (by omega)

theorem printMany_wrap (h : c.At x y n) (hr : InRange x y) (hu : Glyph unicode) (hx0 : 0 ≤ x)
    (hright : x ≤ g.width) (hk : 8 * k ≤ g.width) (hover : g.width < x + 8 * k)
    (hx : x + 8 * k < 2 ^ 15) (hrow : y + 16 < g.height) (hy : y + 16 < 2 ^ 15) :
    ∃ m : ℕ, m < k ∧ (printMany g C.counting unicode fg k c).At (8 + 8 * m) (y + 16) n := by
  obtain ⟨j, m, rfl, hfull, hrj, hj⟩ := printMany_over C fg h hr hu hx0 hright hover (by omega) hx
  have htop := hr.top
  have hnext : (printMany g C.counting unicode fg (1 + j) c).At 8 (y + 16) n := by
    rw [Nat.add_comm, printMany_succ]
    exact printOne_wrap hj hrj hu hfull hrow hy
  refine ⟨m, by omega, ?_⟩
  rw [Nat.add_assoc, printMany_add]
  exact printMany_stay hnext ⟨by decide, by decide, by omega, hy⟩ hu (by omega) hrow (by omega)

theorem printMany_scroll (h : c.At x y n) (hr : InRange x y) (hu : Glyph unicode) (hx0 : 0 ≤ x)
    (hright : x ≤ g.width) (hk : 8 * k ≤ g.width) (hover : g.width < x + 8 * k)
    (hx : x + 8 * k < 2 ^ 15) (hrow : y < g.height) (hlast : g.height ≤ y + 16)
    (hy : y + 16 < 2 ^ 15) (hH : 16 ≤ g.height) :
    ∃ m : ℕ, m < k ∧
      (printMany g C.counting unicode fg k c).At (8 + 8 * m) (g.height - 16) (n + 1) := by
  obtain ⟨j, m, rfl, hfull, hrj, hj⟩ := printMany_over C fg h hr hu hx0 hright hover hrow hx
  have hnext : (printMany g C.counting unicode fg (1 + j) c).At 8 (g.height - 16) (n + 1) := by
    rw [Nat.add_comm, printMany_succ]
    exact printOne_scroll hj hrj hu hfull hlast hy (by omega)
  refine ⟨m, by omega, ?_⟩
  rw [Nat.add_assoc, printMany_add]
  exact printMany_stay hnext ⟨by decide, by decide, by omega, by omega⟩ hu (by omega) (by omega)
    (by omega)

/-- A cursor with room for a glyph on the screen. -/
structure Placed {τ : Type} (g : Gfx) (d : Console τ) : Prop where
  inRange : InRange d.x d.y
  fits : d.x + 8 ≤ g.width
  onScreen : d.y < g.height

theorem placeCursor_placed {τ : Type} (D : Canvas τ) (d : Console τ) (hW : 8 ≤ g.width) :
    Placed g (placeCursor g D d d.x d.y) := by
  have hstart : ∀ v, InRange 0 (toInt16 v) := fun v =>
    ⟨by decide, by decide, (toInt16_bounds v).1, (toInt16_bounds v).2⟩
  have hlast : toInt16 (g.height - glyphHeight) < g.height := by
    rw [toInt16, glyphHeight, Gfx.height]
    omega
  simp only [placeCursor]
  split_ifs with hover hlow hlow
  · exact ⟨hstart _, hW, hlast⟩
  · exact ⟨hstart _, hW, Int.not_le.mp hlow⟩
  · exact ⟨hstart _, hW, hlast⟩
  · exact ⟨⟨(toInt16_bounds _).1, (toInt16_bounds _).2, (toInt16_bounds _).1,
      (toInt16_bounds _).2⟩, Int.not_lt.mp hover, Int.not_le.mp hlow⟩

/-- Where the cursor is placed, it stays: a tab is four spaces. -/
theorem framebufferPrintChar_tab {τ : Type} {D : Canvas τ} {d : Console τ}
    (hp : Placed g (placeCursor g D d d.x d.y)) :
    framebufferPrintChar g D d '\t' d.x d.y fg = printMany g D ' ' fg 4 d := by
  have hspace : Glyph ' ' := by decide
  have hfirst : printOne g D (placeCursor g D d d.x d.y) ' ' (placeCursor g D d d.x d.y).x
      (placeCursor g D d d.x d.y).y fg = printOne g D d ' ' d.x d.y fg := by
    rw [printOne_glyph hspace, printOne_glyph hspace,
      placeCursor_stay hp.inRange hp.fits hp.onScreen]
  rw [framebufferPrintChar, if_pos rfl]
  exact congrArg (fun d => printOne g D d ' ' d.x d.y fg)^[3] hfirst

/-- The number of glyphs that a key prints. -/
def cells (unicode : Char) : ℕ := if unicode = '\t' then 4 else 1

theorem printString_one {τ : Type} {D : Canvas τ} {d : Console τ}
    (hu : Glyph unicode ∨ unicode = '\t') (hp : Placed g (placeCursor g D d d.x d.y)) :
    ∃ glyph, Glyph glyph ∧
      framebufferPrintString g D d [unicode] fg = printMany g D glyph fg (cells unicode) d := by
  rcases hu with hu | rfl
  · refine ⟨unicode, hu, ?_⟩
    rw [cells, if_neg hu.2.2.1]
    exact if_neg hu.2.2.1
  · exact ⟨' ', by decide, framebufferPrintChar_tab hp⟩

theorem printString_backspace {τ : Type} {D : Canvas τ} {d : Console τ} :
    framebufferPrintString g D d ['\x08'] fg = eraseChar g D (placeCursor g D d d.x d.y) := rfl

theorem toInt16_back (v : ℤ) : toInt16 (toInt16 (toInt16 v + 8) - 8) = toInt16 v := by
  simp only [toInt16]
  omega

theorem eraseChar_zero {τ : Type} {D : Canvas τ} {d : Console τ} (hx : d.x = 0) (hy : d.y = 0) :
    eraseChar g D d = d := by
  rw [eraseChar, if_pos hx, if_pos hy]

/-- At the beginning of a line, the last cell of the line above is cleared. -/
theorem eraseChar_lineAbove {τ : Type} {D : Canvas τ} {d : Console τ} (hx : d.x = 0)
    (hy : d.y ≠ 0) : eraseChar g D d =
      { d with
        x := toInt16 (g.width - 8)
        y := toInt16 (d.y - 16)
        canvas := D.putGlyph d.canvas (toInt16 (g.width - 8)) (toInt16 (d.y - 16)) ' ' d.fg } := by
  have hspace : Glyph ' ' := by decide
  simp only [eraseChar, if_pos hx, if_neg hy, ssfnPutc_eq _ _ hspace, glyphWidth, glyphHeight,
    toInt16_back]

/-- Elsewhere, the cell before the cursor is. -/
theorem eraseChar_cellBefore {τ : Type} {D : Canvas τ} {d : Console τ} (hx : d.x ≠ 0) :
    eraseChar g D d =
      { d with
        x := toInt16 (d.x - 8)
        canvas := D.putGlyph d.canvas (toInt16 (d.x - 8)) d.y ' ' d.fg } := by
  have hspace : Glyph ' ' := by decide
  simp only [eraseChar, if_neg hx, ssfnPutc_eq _ _ hspace, glyphWidth, toInt16_back]

/-- A backspace steps back on its line. -/
theorem eraseChar_back (h : c.At x y n) (hx : 8 ≤ x) (hx' : x < 2 ^ 15) :
    (eraseChar g C.counting c).At (x - 8) y n := by
  obtain ⟨rfl, rfl, rfl⟩ := h
  rw [eraseChar_cellBefore (by omega)]
  exact ⟨toInt16_eq (show -2 ^ 15 ≤ c.x - 8 by omega) (by omega), rfl, rfl⟩

/-- At the beginning of a line it goes to the end of the line above. -/
theorem eraseChar_up (h : c.At 0 y n) (hy : y ≠ 0) (htop : -2 ^ 15 ≤ y - 16) (hy' : y < 2 ^ 15)
    (hW : 8 ≤ g.width) (hW' : g.width < 2 ^ 15) :
    (eraseChar g C.counting c).At (g.width - 8) (y - 16) n := by
  obtain ⟨hx0, rfl, rfl⟩ := h
  rw [eraseChar_lineAbove hx0 hy]
  exact ⟨toInt16_eq (show -2 ^ 15 ≤ g.width - 8 by omega) (by omega),
    toInt16_eq htop (by omega), rfl⟩

/-- What placing the cursor and printing a single character keep, all printing keeps. -/
theorem printStrings_keeps {τ : Type} {D : Canvas τ} {d : Console τ} {P : Console τ → Prop}
    {Q : Char → Prop} (hplace : ∀ d, P d → P (placeCursor g D d d.x d.y)) (hspace : Q ' ')
    (hone : ∀ d unicode fg, Q unicode → unicode ≠ '\t' → P d →
      P (printOne g D d unicode d.x d.y fg))
    {calls : List (List Char × BitVec 32)} (hcalls : ∀ call ∈ calls, ∀ u ∈ call.1, Q u) (h : P d) :
    P (printStrings g D d calls) := by
  have hchar : ∀ d unicode fg, Q unicode → P d →
      P (framebufferPrintChar g D d unicode d.x d.y fg) := by
    intro d unicode fg hu h
    have hstep : ∀ d, P d → P (printOne g D d ' ' d.x d.y fg) :=
      fun d => hone d ' ' fg hspace (by decide)
    rw [framebufferPrintChar]
    split_ifs with htab
    · exact hstep _ (hstep _ (hstep _ (hstep _ (hplace d h))))
    · exact hone d unicode fg hu htab h
  have hstring : ∀ (string : List Char) fg d, (∀ u ∈ string, Q u) → P d →
      P (framebufferPrintString g D d string fg) := by
    intro string fg
    induction string with
    | nil => exact fun _ _ h => h
    | cons unicode string ih =>
      exact fun d hs h => ih _ (fun u hu => hs u (List.mem_cons_of_mem _ hu))
        (hchar d unicode fg (hs unicode List.mem_cons_self) h)
  induction calls generalizing d with
  | nil => exact h
  | cons call calls ih =>
    exact ih (fun call hcall => hcalls call (List.mem_cons_of_mem _ hcall))
      (hstring call.1 call.2 d (hcalls call List.mem_cons_self) h)

/-- A line feed at the end of a string leaves the cursor at the beginning of a line. -/
theorem printString_lineFeed {τ : Type} (g : Gfx) (D : Canvas τ) (d : Console τ) (l : List Char)
    (fg : BitVec 32) :
    (framebufferPrintString g D d (l ++ ['\n']) fg).x = 0 ∧
      InRange 0 (framebufferPrintString g D d (l ++ ['\n']) fg).y := by
  rw [framebufferPrintString, List.foldl_append]
  exact ⟨rfl, by decide, by decide, (toInt16_bounds _).1, (toInt16_bounds _).2⟩

/-- The first glyph of a line, which may lie below the screen. -/
theorem printOne_lineStart (h : c.At 0 y n) (hr : InRange 0 y) (hu : Glyph unicode)
    (hW : 8 ≤ g.width) (hH : 16 ≤ g.height) : ∃ y' n', y' < g.height ∧ InRange 8 y' ∧
      (printOne g C.counting c unicode c.x c.y fg).At 8 y' n' := by
  rw [printOne_glyph hu]
  by_cases hrow : y < g.height
  · obtain ⟨hx, rfl, rfl⟩ := h
    refine ⟨c.y, c.canvas.2, hrow, ⟨by decide, by decide, hr.top, hr.bottom⟩, ?_⟩
    rw [placeCursor_stay (by rwa [hx]) (by omega) hrow]
    exact ssfnPutc_glyph ⟨hx, rfl, rfl⟩ hu (by decide) (by decide)
  · obtain ⟨hx, rfl, rfl⟩ := h
    have hbottom := hr.bottom
    refine ⟨g.height - 16, c.canvas.2 + 1, by omega, ⟨by decide, by decide, by omega, by omega⟩, ?_⟩
    have hplace : (placeCursor g C.counting c c.x c.y).At 0 (g.height - 16) (c.canvas.2 + 1) := by
      rw [placeCursor_below (by rwa [hx]) (by omega) (by omega) (by omega)]
      exact ⟨rfl, rfl, rfl⟩
    exact ssfnPutc_glyph hplace hu (by decide) (by decide)

theorem printString_lineStart {l : List Char} (h : c.At 0 y n) (hr : InRange 0 y)
    (hl : ∀ u ∈ unicode :: l, Glyph u) (hfit : 8 + 8 * l.length ≤ g.width) (hH : 16 ≤ g.height)
    (hx : 8 + 8 * (l.length : ℤ) < 2 ^ 15) :
    ∃ y' n', y' < g.height ∧ InRange 8 y' ∧
      (framebufferPrintString g C.counting c (unicode :: l) fg).At (8 + 8 * l.length) y' n' := by
  have hu := hl unicode List.mem_cons_self
  have hfirst : ∃ y' n', y' < g.height ∧ InRange 8 y' ∧
      (printOne g C.counting c unicode c.x c.y fg).At 8 y' n' :=
    printOne_lineStart h hr hu (by omega) hH
  obtain ⟨y', n', hrow, hr', hfirst⟩ := hfirst
  refine ⟨y', n', hrow, hr', ?_⟩
  rw [printString_cons _ _ hu]
  exact printString_stay hfirst hr' (fun u hu => hl u (List.mem_cons_of_mem _ hu)) hfit hrow hx

end Console

end KnutOS
