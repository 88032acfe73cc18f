import KnutOS.Devices.Drawing
import Mathlib.Algebra.Order.Ring.Int
import Mathlib.Tactic.Linarith
import Mathlib.Tactic.Ring
import Mathlib.Tactic.SplitIfs

/-! The scroll in place, pixel by pixel: what it does to the words of the framebuffer, and when these
are the pixels of the screen. -/
namespace KnutOS

open Foundation

namespace Screen

variable {s : Screen} {bg : BitVec 32} {fb fb' : Pixels} {x y x' y' : ℤ} {column row : ℕ}

/-- Different pixels have different indices. -/
theorem fbIndex_inj (hs : s.PitchFits) (hx : 0 ≤ x) (hxW : x < s.width) (hx' : 0 ≤ x')
    (hxW' : x' < s.width) : s.fbIndex x y = s.fbIndex x' y' ↔ x = x' ∧ y = y' := by
  constructor
  · intro h
    have hwidth : s.width ≤ (s.fbPitch.toNat / 4 : ℕ) := by
      rw [PitchFits] at hs
      rw [Gfx.width]
      omega
    have hline : ∀ {x y : ℤ}, 0 ≤ x → x < s.width →
        s.fbIndex x y / (s.fbPitch.toNat / 4 : ℕ) = y := by
      intro x y hx hxW
      rw [fbIndex, Int.add_comm, Int.add_mul_ediv_right _ _ (by omega),
        Int.ediv_eq_zero_of_lt hx (by omega), Int.zero_add]
    have hy : y = y' := by rw [← hline (y := y) hx hxW, h, hline hx' hxW']
    subst hy
    rw [fbIndex, fbIndex] at h
    exact ⟨by omega, rfl⟩
  · rintro ⟨rfl, rfl⟩
    rfl

/-- The pixel comes before the pixel at `(row, column)` in the order of the loops. -/
def Before (column row : ℕ) (x y : ℤ) : Prop := y < column ∨ y = column ∧ x < row

instance (column row : ℕ) (x y : ℤ) : Decidable (Before column row x y) :=
  inferInstanceAs (Decidable (_ ∨ _))

/-- The color of a visible pixel when the loops get to `(row, column)`. -/
def scrolled (s : Screen) (bg : BitVec 32) (fb : Pixels) (column row : ℕ) (x y : ℤ) : BitVec 32 :=
  if Before column row x (y + 16) then fb (s.fbIndex x (y + 16))
  else if 16 ≤ y ∧ Before column row x y then bg
  else fb (s.fbIndex x y)

/-- The lines above are final, those between are cleared, the others are as they were. -/
structure Scrolled (s : Screen) (bg : BitVec 32) (fb : Pixels) (column row : ℕ) (fb' : Pixels) :
    Prop where
  visible : ∀ x y, s.Visible x y → fb' (s.fbIndex x y) = scrolled s bg fb column row x y
  frame : ∀ i, (∀ x y, s.Visible x y → i ≠ s.fbIndex x y) → fb' i = fb i

theorem scrolled_start (s : Screen) (bg : BitVec 32) (fb : Pixels) : Scrolled s bg fb 16 0 fb := by
  refine ⟨?_, fun i _ => rfl⟩
  rintro x y ⟨hx, _, hy, _⟩
  have hfinal : ¬ Before 16 0 x (y + 16) := by
    rw [Before]
    omega
  have hclear : ¬ (16 ≤ y ∧ Before 16 0 x y) := by
    rw [Before]
    omega
  rw [scrolled, if_neg hfinal, if_neg hclear]

theorem moveUpPixel_apply (s : Screen) (bg : BitVec 32) (column row : ℕ) (fb : Pixels) (i : ℤ) :
    moveUpPixel s bg column fb row i =
      if i = s.fbIndex row (column - 16) then fb (s.fbIndex row column)
      else if i = s.fbIndex row column then bg
      else fb i := rfl

/-- The source pixel is still the old one when it is read, and no other pixel but the source and
the target changes. -/
theorem Scrolled.pixel (hs : s.PitchFits) (h : Scrolled s bg fb column row fb') (hlo : 16 ≤ column)
    (hhi : column < s.fbHeight.toNat) (hrow : row < s.fbWidth.toNat) :
    Scrolled s bg fb column (row + 1) (moveUpPixel s bg column fb' row) := by
  have hW : (row : ℤ) < s.width := Int.ofNat_lt.mpr hrow
  have hH : (column : ℤ) < s.height := Int.ofNat_lt.mpr hhi
  have hsource : fb' (s.fbIndex row column) = fb (s.fbIndex row column) := by
    have hfinal : ¬ Before column row row (column + 16) := by
      rw [Before]
      omega
    have hclear : ¬ (16 ≤ (column : ℤ) ∧ Before column row row column) := by
      rw [Before]
      omega
    rw [h.visible row column ⟨by omega, hW, by omega, hH⟩, scrolled, if_neg hfinal, if_neg hclear]
  refine ⟨?_, ?_⟩
  · rintro x y ⟨hx, hxW, hy, hyH⟩
    have hindex : ∀ {y'}, s.fbIndex x y = s.fbIndex row y' ↔ x = row ∧ y = y' :=
      fbIndex_inj hs hx hxW (by omega) hW
    rw [moveUpPixel_apply, hsource, h.visible x y ⟨hx, hxW, hy, hyH⟩]
    by_cases htarget : x = row ∧ y = column - 16
    · have hfinal : Before column (row + 1) x (y + 16) := by
        rw [Before]
        omega
      have hbelow : s.fbIndex x (y + 16) = s.fbIndex row column := by
        rw [htarget.1, htarget.2, Int.sub_add_cancel]
      rw [if_pos (hindex.mpr htarget), scrolled, if_pos hfinal, hbelow]
    · rw [if_neg (mt hindex.mp htarget)]
      by_cases hread : x = row ∧ y = column
      · have hfinal : ¬ Before column (row + 1) x (y + 16) := by
          rw [Before]
          omega
        have hclear : 16 ≤ y ∧ Before column (row + 1) x y := by
          rw [Before]
          omega
        rw [if_pos (hindex.mpr hread), scrolled, if_neg hfinal, if_pos hclear]
      · have hfinal : Before column (row + 1) x (y + 16) ↔ Before column row x (y + 16) := by
          rw [Before, Before]
          omega
        have hclear : Before column (row + 1) x y ↔ Before column row x y := by
          rw [Before, Before]
          omega
        simp only [if_neg (mt hindex.mp hread), scrolled, hfinal, hclear]
  · intro i hi
    have htarget : i ≠ s.fbIndex row (column - 16) :=
      hi row (column - 16) ⟨by omega, hW, by omega, by omega⟩
    have hread : i ≠ s.fbIndex row column := hi row column ⟨by omega, hW, by omega, hH⟩
    rw [moveUpPixel_apply, if_neg htarget, if_neg hread, h.frame i hi]

theorem Scrolled.nextLine (h : Scrolled s bg fb column s.fbWidth.toNat fb') :
    Scrolled s bg fb (column + 1) 0 fb' := by
  refine ⟨?_, h.frame⟩
  intro x y hv
  have hbefore : ∀ y, Before (column + 1) 0 x y ↔ Before column s.fbWidth.toNat x y := by
    intro y
    have hx : 0 ≤ x := hv.1
    have hxW : x < s.fbWidth.toNat := hv.2.1
    rw [Before, Before]
    omega
  rw [h.visible x y hv, scrolled, scrolled]
  simp only [hbefore]

theorem Scrolled.line (hs : s.PitchFits) (h : Scrolled s bg fb column 0 fb') (hlo : 16 ≤ column)
    (hhi : column < s.fbHeight.toNat) :
    Scrolled s bg fb (column + 1) 0
      ((List.range' 0 s.fbWidth.toNat).foldl (moveUpPixel s bg column) fb') := by
  apply Scrolled.nextLine
  have hline := foldl_range'_invariant (n := s.fbWidth.toNat)
      (I := fun row fb' => Scrolled s bg fb column row fb') h
    (a := 0) fun row fb' _ hrow hfb' => hfb'.pixel hs hlo hhi (by omega)
  rwa [Nat.zero_add] at hline

theorem scrolled_framebufferMoveOneRowUp (hs : s.PitchFits) (hH : 16 ≤ s.fbHeight.toNat)
    (bg : BitVec 32) (fb : Pixels) :
    Scrolled s bg fb s.fbHeight.toNat 0 (framebufferMoveOneRowUp s bg fb) := by
  have hlines := foldl_range'_invariant (n := s.fbHeight.toNat - 16)
    (I := fun column fb' => Scrolled s bg fb column 0 fb') (scrolled_start s bg fb)
    fun column fb' hlo hhi hfb' => hfb'.line hs hlo (by omega)
  rwa [Nat.add_sub_cancel' hH] at hlines

/-- By the indices of the code, every line takes the colors of the one 16 below it, the last 16 are
cleared, and nothing else changes. -/
theorem framebufferMoveOneRowUp_index (s : Screen) (bg : BitVec 32) (fb : Pixels)
    (hH : 32 ≤ s.fbHeight.toNat) (hs : s.PitchFits) :
    (∀ x y, s.Visible x y → y < s.height - glyphHeight →
      framebufferMoveOneRowUp s bg fb (s.fbIndex x y) = fb (s.fbIndex x (y + glyphHeight))) ∧
    (∀ x y, s.Visible x y → s.height - glyphHeight ≤ y →
      framebufferMoveOneRowUp s bg fb (s.fbIndex x y) = bg) ∧
    ∀ i, (∀ x y, s.Visible x y → i ≠ s.fbIndex x y) → framebufferMoveOneRowUp s bg fb i = fb i := by
  have h := scrolled_framebufferMoveOneRowUp hs (by omega) bg fb
  have hheight : s.height = s.fbHeight.toNat := rfl
  refine ⟨?_, ?_, h.frame⟩
  · intro x y hv hy
    have hfinal : Before s.fbHeight.toNat 0 x (y + 16) := by
      rw [glyphHeight] at hy
      rw [Before]
      omega
    rw [h.visible x y hv, scrolled, if_pos hfinal, glyphHeight]
  · intro x y hv hy
    have hx := hv.1
    have hyH := hv.2.2.2
    rw [glyphHeight] at hy
    have hfinal : ¬ Before s.fbHeight.toNat 0 x (y + 16) := by
      rw [Before]
      omega
    have hclear : 16 ≤ y ∧ Before s.fbHeight.toNat 0 x y := by
      rw [Before]
      omega
    rw [h.visible x y hv, scrolled, if_neg hfinal, if_pos hclear]

/-- Where the color of a pixel is displayed from: a line is `fb_pitch` bytes long, a pixel 4. -/
def pixelByte (s : Screen) (x y : ℤ) : ℤ := y * s.fbPitch.toNat + 4 * x

/-- The byte at an offset from `fb_addr`. -/
def fbByte (fb : Pixels) (b : ℤ) : BitVec 8 :=
  (fb (b / 4)).extractLsb' (8 * (b % 4).toNat) 8

/-- The color that is displayed at a pixel. -/
def shown (s : Screen) (fb : Pixels) (x y : ℤ) : BitVec 32 :=
  fbByte fb (s.pixelByte x y + 3) ++ fbByte fb (s.pixelByte x y + 2) ++
    fbByte fb (s.pixelByte x y + 1) ++ fbByte fb (s.pixelByte x y)

/-- The screen shows what was 16 lines below, over 16 lines of the background, and the bytes
around the visible pixels are as they were. -/
structure CleanShift (s : Screen) (bg : BitVec 32) (fb fb' : Pixels) : Prop where
  shifted : ∀ x y, s.Visible x y → y < s.height - glyphHeight →
    s.shown fb' x y = s.shown fb x (y + glyphHeight)
  cleared : ∀ x y, s.Visible x y → s.height - glyphHeight ≤ y → s.shown fb' x y = bg
  frame : ∀ b, (∀ x y, s.Visible x y → b < s.pixelByte x y ∨ s.pixelByte x y + 4 ≤ b) →
    fbByte fb' b = fbByte fb b

theorem byte_word (fb : Pixels) (i : ℤ) {k : ℕ} (hk : k < 4) :
    fbByte fb (4 * i + k) = (fb i).extractLsb' (8 * k) 8 := by
  have hword : (4 * i + k) / 4 = i := by omega
  have hbyte : ((4 * i + k) % 4).toNat = k := by omega
  rw [fbByte, hword, hbyte]

theorem append_extract32 (v : BitVec 32) :
    v.extractLsb' 24 8 ++ v.extractLsb' 16 8 ++ v.extractLsb' 8 8 ++ v.extractLsb' 0 8 = v := by
  apply BitVec.eq_of_getLsbD_eq
  intro i hi
  simp only [BitVec.getLsbD_append, BitVec.getLsbD_extractLsb']
  grind

theorem extract_append (a b c d : BitVec 8) : (a ++ b ++ c ++ d).extractLsb' 24 8 = a := by
  apply BitVec.eq_of_getLsbD_eq
  intro i hi
  simp only [BitVec.getLsbD_append, BitVec.getLsbD_extractLsb']
  grind

/-- A pitch of whole words: the word that the code takes for a pixel is the one displayed. -/
theorem pixelByte_of_dvd (hdvd : 4 ∣ s.fbPitch.toNat) (x y : ℤ) :
    s.pixelByte x y = 4 * s.fbIndex x y := by
  obtain ⟨q, hq⟩ := hdvd
  rw [pixelByte, fbIndex, hq, Nat.mul_div_cancel_left q (by decide)]
  push_cast
  ring

theorem shown_of_dvd (hdvd : 4 ∣ s.fbPitch.toNat) (fb : Pixels) (x y : ℤ) :
    s.shown fb x y = fb (s.fbIndex x y) := by
  have hbyte : ∀ k : ℕ, k < 4 → fbByte fb (s.pixelByte x y + k) =
      (fb (s.fbIndex x y)).extractLsb' (8 * k) 8 := by
    intro k hk
    rw [pixelByte_of_dvd hdvd, byte_word fb _ hk]
  have h0 := hbyte 0 (by decide)
  have h1 := hbyte 1 (by decide)
  have h2 := hbyte 2 (by decide)
  have h3 := hbyte 3 (by decide)
  rw [Nat.cast_zero, Int.add_zero] at h0
  rw [shown, h0]
  exact (congrArg₂ _ (congrArg₂ _ (congrArg₂ _ h3 h2) h1) rfl).trans (append_extract32 _)

theorem cleanShift_of_dvd (hH : 32 ≤ s.fbHeight.toNat) (hs : s.PitchFits)
    (hdvd : 4 ∣ s.fbPitch.toNat) (bg : BitVec 32) (fb : Pixels) :
    s.CleanShift bg fb (framebufferMoveOneRowUp s bg fb) := by
  obtain ⟨hshift, hclear, hframe⟩ := framebufferMoveOneRowUp_index s bg fb hH hs
  refine ⟨?_, ?_, ?_⟩
  · intro x y hv hy
    rw [shown_of_dvd hdvd, shown_of_dvd hdvd, hshift x y hv hy]
  · intro x y hv hy
    rw [shown_of_dvd hdvd, hclear x y hv hy]
  · intro b hb
    have hword : framebufferMoveOneRowUp s bg fb (b / 4) = fb (b / 4) := by
      apply hframe
      intro x y hv hi
      have hout := hb x y hv
      rw [pixelByte_of_dvd hdvd, ← hi] at hout
      omega
    rw [fbByte, fbByte, hword]

/-- With lines that are no whole number of words, the code never gets to the last byte of the last
pixel. -/
theorem last_untouched (hs : s.PitchFits) (hdvd : ¬ 4 ∣ s.fbPitch.toNat) (hH : 2 ≤ s.fbHeight.toNat)
    (hv : s.Visible x y) :
    (s.pixelByte (s.width - 1) (s.height - 1) + 3) / 4 ≠ s.fbIndex x y := by
  obtain ⟨hx, hxW, hy, hyH⟩ := hv
  rw [PitchFits] at hs
  rw [Gfx.width] at hxW
  rw [Gfx.height] at hyH
  have hline : y * (s.fbPitch.toNat / 4 : ℕ) ≤ (s.fbHeight.toNat - 1) * (s.fbPitch.toNat / 4 : ℕ) :=
    Int.mul_le_mul_of_nonneg_right (by omega) (by omega)
  have hrest : (s.fbHeight.toNat - 1) * (4 * (s.fbPitch.toNat / 4 : ℕ) + 1 : ℤ) ≤
      (s.fbHeight.toNat - 1) * s.fbPitch.toNat := Int.mul_le_mul_of_nonneg_left (by omega) (by omega)
  have hlast : 4 * ((s.fbHeight.toNat - 1) * (s.fbPitch.toNat / 4 : ℕ) + s.fbWidth.toNat) ≤
      s.pixelByte (s.width - 1) (s.height - 1) + 3 := by
    rw [pixelByte, Gfx.width, Gfx.height]
    linarith
  rw [fbIndex]
  omega

theorem not_cleanShift (hH : 32 ≤ s.fbHeight.toNat) (hs : s.PitchFits) (hW : s.fbWidth.toNat ≠ 0)
    (hdvd : ¬ 4 ∣ s.fbPitch.toNat) :
    ¬ s.CleanShift 0#32 (fun _ => -1#32)
      (framebufferMoveOneRowUp s 0#32 fun _ => -1#32) := by
  intro h
  have hv : s.Visible (s.width - 1) (s.height - 1) := by
    simp only [Gfx.Visible, Gfx.width, Gfx.height]
    omega
  have hold : fbByte (framebufferMoveOneRowUp s 0#32 fun _ => -1#32)
      (s.pixelByte (s.width - 1) (s.height - 1) + 3) =
        (-1#32).extractLsb' (8 * ((s.pixelByte (s.width - 1) (s.height - 1) + 3) % 4).toNat) 8 := by
    rw [fbByte, (framebufferMoveOneRowUp_index s 0#32 _ hH hs).2.2 _ fun x y hv' =>
      last_untouched hs hdvd (by omega) hv']
  have hcleared := h.cleared _ _ hv (by rw [glyphHeight]; omega)
  rw [shown, hold] at hcleared
  have htop := (extract_append _ _ _ _).symm.trans (congrArg (BitVec.extractLsb' 24 8) hcleared)
  have hcases : ∀ k < 4, (-1#32).extractLsb' (8 * k) 8 ≠ (0#32).extractLsb' 24 8 := by decide
  exact hcases _ (by omega) htop

/-- The scroll is a clean shift of every screen content if and only if the lines are a whole number
of words long, or there is nothing to shift. -/
theorem framebufferMoveOneRowUp_cleanShift_iff (s : Screen) (hH : 32 ≤ s.fbHeight.toNat)
    (hs : s.PitchFits) :
    (∀ bg fb, s.CleanShift bg fb (framebufferMoveOneRowUp s bg fb)) ↔
      4 ∣ s.fbPitch.toNat ∨ s.fbWidth.toNat = 0 := by
  constructor
  · intro h
    by_contra hcond
    obtain ⟨hdvd, hW⟩ := not_or.mp hcond
    exact not_cleanShift hH hs hW hdvd (h _ _)
  · rintro (hdvd | hW) bg fb
    · exact cleanShift_of_dvd hH hs hdvd bg fb
    · have hnone : ∀ x y, ¬ s.Visible x y := by
        intro x y hv
        have hx := hv.1
        have hxW := hv.2.1
        rw [Gfx.width] at hxW
        omega
      have hsame := (framebufferMoveOneRowUp_index s bg fb hH hs).2.2
      refine ⟨fun x y hv => absurd hv (hnone x y), fun x y hv => absurd hv (hnone x y), ?_⟩
      intro b _
      rw [fbByte, fbByte, hsame _ fun x y hv => absurd hv (hnone x y)]

/-- 2 by 40 pixels, with one more pixel in each line of memory. -/
def narrow : Screen := ⟨⟨2#16, 40#16⟩, 12#16⟩

theorem framebufferMoveOneRowUp_cleanShift_narrow :
    narrow.CleanShift 0#32 (BitVec.ofInt 32)
      (framebufferMoveOneRowUp narrow 0#32 (BitVec.ofInt 32)) :=
  (framebufferMoveOneRowUp_cleanShift_iff narrow (by decide) (by decide)).mpr (by decide) _ _

/-- 1 by 32 pixels, with 2 more bytes in each line of memory: the second half is shifted by 16 lines
of 4 bytes. -/
theorem framebufferMoveOneRowUp_oddPitch :
    ¬ Screen.CleanShift ⟨⟨1#16, 32#16⟩, 6#16⟩ 0#32 (BitVec.ofInt 32)
      (framebufferMoveOneRowUp ⟨⟨1#16, 32#16⟩, 6#16⟩ 0#32 (BitVec.ofInt 32)) := by
  intro h
  have hfirst := h.shifted 0 0 (by decide) (by decide)
  exact absurd hfirst (by decide +kernel)

end Screen

end KnutOS
