import KnutOS.Foundation.Bytes
import KnutOS.Foundation.Loop
import KnutOS.Memory.Mem
import Mathlib.Data.Nat.Find
import Mathlib.Logic.Function.Iterate

/-! The tags of the bootloader (`boot/stivale2_boot.c`), a list that is linked through memory. -/
namespace KnutOS

open Foundation

/-- `current_tag->identifier`. -/
def tagIdentifier (m : Bytes) (tag : Word) : Word := load64 m tag

/-- `current_tag->next`. -/
def tagNext (m : Bytes) (tag : Word) : Word := load64 m (tag + 8#64)

/-- `stivale2_struct->tags`, behind the brand and the version of the bootloader. -/
def stivale2Tags (m : Bytes) (stivale2Struct : Word) : Word := load64 m (stivale2Struct + 128#64)

/-- A round of the loop in `stivale2_get_tag`. -/
def stivale2GetTagRound (m : Bytes) (id : Word) (currentTag : Word) : Round Word Word :=
  if currentTag = 0#64 then .leave 0#64
  else if tagIdentifier m currentTag = id then .leave currentTag
  else .goOn (tagNext m currentTag)

/-- `stivale2_get_tag` returns `tag`. -/
def Stivale2GetTag (m : Bytes) (stivale2Struct id tag : Word) : Prop :=
  Returns (stivale2GetTagRound m id) (stivale2Tags m stivale2Struct) tag

namespace Stivale2

variable {m : Bytes} {id tag stivale2Struct : Word} {tags : List Word} {k : ℕ}

/-- The tag after `k` others. -/
def nthTag (m : Bytes) (tag : Word) (k : ℕ) : Word := (tagNext m)^[k] tag

theorem nthTag_succ (m : Bytes) (tag : Word) (k : ℕ) :
    nthTag m tag (k + 1) = tagNext m (nthTag m tag k) := Function.iterate_succ_apply' _ k tag

/-- The end of the list, or the tag that is looked for. -/
def Stops (m : Bytes) (id tag : Word) : Prop := tag = 0#64 ∨ tagIdentifier m tag = id

theorem round_of_stops (h : Stops m id tag) : stivale2GetTagRound m id tag = .leave tag := by
  rw [stivale2GetTagRound]
  by_cases hz : tag = 0#64
  · rw [if_pos hz, hz]
  · rw [if_neg hz, if_pos (h.resolve_left hz)]

theorem round_of_not_stops (h : ¬ Stops m id tag) :
    stivale2GetTagRound m id tag = .goOn (tagNext m tag) := by
  obtain ⟨hz, hid⟩ := not_or.mp h
  rw [stivale2GetTagRound, if_neg hz, if_neg hid]

/-- The search ends at the first place where it can. -/
theorem returns_of_first {r : Word} (hfirst : ∀ j < k, ¬ Stops m id (nthTag m tag j))
    (hstop : Stops m id (nthTag m tag k)) (hr : r = nthTag m tag k) :
    Returns (stivale2GetTagRound m id) tag r := by
  have hvisits : Visits (stivale2GetTagRound m id) (nthTag m tag 0) (nthTag m tag k) :=
    visits_of_path fun j hj => by rw [round_of_not_stops (hfirst j hj), nthTag_succ]
  rw [hr]
  exact hvisits.returns (returns_of_leave (round_of_stops hstop))

/-- What `stivale2_get_tag` returns in any memory. It does not return from a list that runs in a
circle past the tag. -/
theorem getTag_iff (m : Bytes) (id tag r : Word) :
    Returns (stivale2GetTagRound m id) tag r ↔
      ∃ k, (∀ j < k, ¬ Stops m id (nthTag m tag j)) ∧ Stops m id (nthTag m tag k) ∧
        r = nthTag m tag k := by
  constructor
  · intro h
    have hpath : (∃ r, Returns (stivale2GetTagRound m id) (nthTag m tag 0) r) ↔
        ∃ k, ¬ ¬ Stops m id (nthTag m tag k) := by
      refine exists_returns_path_iff (fun k hk => ?_) (fun k _ hk => ?_)
      · rw [round_of_not_stops hk, nthTag_succ]
      · exact ⟨_, round_of_stops (not_not.mp hk)⟩
    have hexists := hpath.mp ⟨r, h⟩
    simp only [not_not] at hexists
    classical
    have hfirst : ∀ j < Nat.find hexists, ¬ Stops m id (nthTag m tag j) :=
      fun j hj => Nat.find_min hexists hj
    have hreturns := returns_of_first hfirst (Nat.find_spec hexists) rfl
    exact ⟨Nat.find hexists, hfirst, Nat.find_spec hexists, h.unique hreturns⟩
  · rintro ⟨k, hfirst, hstop, hr⟩
    exact returns_of_first hfirst hstop hr

/-- The tags in the order of the list, which ends with them. -/
def Linked (m : Bytes) : Word → List Word → Prop
  | tag, [] => tag = 0#64
  | tag, t :: tags => tag = t ∧ tag ≠ 0#64 ∧ Linked m (tagNext m tag) tags

theorem returns_find (id : Word) (h : Linked m tag tags) :
    Returns (stivale2GetTagRound m id) tag
      ((tags.find? fun t => tagIdentifier m t = id).getD 0#64) := by
  induction tags generalizing tag with
  | nil =>
    have hround : stivale2GetTagRound m id tag = _ := round_of_stops (.inl h)
    rw [h] at hround ⊢
    exact returns_of_leave hround
  | cons t tags ih =>
    obtain ⟨rfl, hne, htail⟩ := h
    by_cases hid : tagIdentifier m tag = id
    · have hround := round_of_stops (.inr hid)
      simpa [hid] using returns_of_leave hround
    · have hround := round_of_not_stops (not_or.mpr ⟨hne, hid⟩)
      simpa [hid] using returns_of_goOn hround (ih htail)

/-- In a list with an end, `stivale2_get_tag` finds the first tag with the identifier, and nothing
else than `NULL` if there is none. -/
theorem stivale2GetTag_iff (h : Linked m (stivale2Tags m stivale2Struct) tags) (id tag : Word) :
    Stivale2GetTag m stivale2Struct id tag ↔
      tag = (tags.find? fun t => tagIdentifier m t = id).getD 0#64 := by
  have hreturns := returns_find id h
  constructor
  · intro hr
    exact hr.unique hreturns
  · rintro rfl
    exact hreturns

/-- A structure at `0x1000`, with a tag at `0x2000` and one at `0x3000`. -/
def twoTags : Bytes :=
  let m := store64 (fun _ => 0#8) 0x1080#64 0x2000#64
  let m := store64 (store64 m 0x2000#64 7#64) 0x2008#64 0x3000#64
  store64 (store64 m 0x3000#64 9#64) 0x3008#64 0#64

theorem stivale2GetTag_iff_twoTags :
    Linked twoTags (stivale2Tags twoTags 0x1000#64) [0x2000#64, 0x3000#64] ∧
      ∀ tag, Stivale2GetTag twoTags 0x1000#64 9#64 tag ↔ tag = 0x3000#64 := by
  have h : Linked twoTags (stivale2Tags twoTags 0x1000#64) [0x2000#64, 0x3000#64] := by
    have h1 : stivale2Tags twoTags 0x1000#64 = 0x2000#64 := by decide +kernel
    have h2 : tagNext twoTags 0x2000#64 = 0x3000#64 := by decide +kernel
    have h3 : tagNext twoTags 0x3000#64 = 0#64 := by decide +kernel
    rw [h1]
    simp [Linked, h2, h3]
  have hfind : ([0x2000#64, 0x3000#64].find? fun t => tagIdentifier twoTags t = 9#64) =
      some 0x3000#64 := by decide +kernel
  refine ⟨h, fun tag => ?_⟩
  rw [stivale2GetTag_iff h, hfind]
  rfl

end Stivale2

end KnutOS
