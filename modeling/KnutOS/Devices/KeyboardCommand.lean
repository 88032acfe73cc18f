import KnutOS.Devices.Keyboard
import Mathlib.Data.List.Basic

/-! What `keyboard_send_command` does to the ports, for every trace of status values. -/
namespace KnutOS

open Foundation

/-- The input buffer of the controller is full. -/
def Busy (status : BitVec 8) : Prop := status &&& 0x2#8 ≠ 0

instance (status : BitVec 8) : Decidable (Busy status) := inferInstanceAs (Decidable (_ ≠ _))

/-- From the `n`-th status read on, the `k`-th is the first that is not busy. -/
def FirstClear (status : ℕ → BitVec 8) (n k : ℕ) : Prop :=
  (∀ j < k, Busy (status (n + j))) ∧ ¬ Busy (status (n + k))

/-- The byte is written once, after a status read that was not busy. -/
def WrittenOnce (byte : BitVec 8) (log : List KbAccess) : Prop :=
  ∃ pre post, log = pre ++ .writeData byte :: post ∧
    (∀ b, KbAccess.writeData b ∉ pre ++ post) ∧ ∃ v, .readStatus v ∈ pre ∧ ¬ Busy v

/-- `keyboard_send_command` returns, and its own accesses get the byte to the keyboard. -/
def SendsOnce (status : ℕ → BitVec 8) (byte : BitVec 8) (p : KbPort) : Prop :=
  ∃ p' sent, KeyboardSendCommand status byte p p' ∧ p'.log = p.log ++ sent ∧ WrittenOnce byte sent

/-- `keyboard_init` sends the command to enable scanning. -/
def EnablesScanning (status : ℕ → BitVec 8) : Prop :=
  ∃ p, KeyboardInitClears status ⟨0, []⟩ p ∧ SendsOnce status 0xF4#8 p

variable {status : ℕ → BitVec 8} {byte : BitVec 8} {p p' : KbPort} {n k : ℕ}

/-- The accesses of `k` rounds, each with a write of its own. -/
def busyRounds (status : ℕ → BitVec 8) (byte : BitVec 8) (n k : ℕ) : List KbAccess :=
  (List.range k).flatMap fun j => [.readStatus (status (n + j)), .writeData byte]

theorem busyRounds_succ : busyRounds status byte n (k + 1) =
    busyRounds status byte n k ++ [.readStatus (status (n + k)), .writeData byte] := by
  simp [busyRounds, List.range_succ, List.flatMap_append]

theorem busy_of_mem_busyRounds {v : BitVec 8} (hbusy : ∀ j < k, Busy (status (n + j)))
    (hv : .readStatus v ∈ busyRounds status byte n k) : Busy v := by
  obtain ⟨j, hj, hmem⟩ := List.mem_flatMap.mp hv
  have hv : v = status (n + j) := by simpa using hmem
  rw [hv]
  exact hbusy j (List.mem_range.mp hj)

/-- The port after `k` busy rounds. -/
def afterBusy (status : ℕ → BitVec 8) (byte : BitVec 8) (p : KbPort) (k : ℕ) : KbPort :=
  ⟨p.statusReads + k, p.log ++ busyRounds status byte p.statusReads k⟩

theorem sendCommandRound_busy (byte : BitVec 8) (p : KbPort) (k : ℕ)
    (h : Busy (status (p.statusReads + k))) :
    sendCommandRound status byte (afterBusy status byte p k) =
      .goOn (afterBusy status byte p (k + 1)) := by
  refine (if_pos h).trans (congrArg Round.goOn ?_)
  simp [afterBusy, busyRounds_succ, KbPort.readStatus, KbPort.writeData, Nat.add_assoc]

theorem sendCommandRound_clear (h : ¬ Busy (status (p.statusReads + k))) :
    sendCommandRound status byte (afterBusy status byte p k) =
      .leave ((afterBusy status byte p k).readStatus status) := if_neg h

theorem afterBusy_zero : afterBusy status byte p 0 = p := by
  simp [afterBusy, busyRounds]

/-- It writes the byte once for every busy status, and not at all for the one that is not. -/
theorem keyboardSendCommand_iff : KeyboardSendCommand status byte p p' ↔
    ∃ k, FirstClear status p.statusReads k ∧ p' = (afterBusy status byte p k).readStatus status := by
  have hend : ∀ k u, (∀ j < k, Busy (status (p.statusReads + j))) →
      ¬ Busy (status (p.statusReads + k)) →
        sendCommandRound status byte (afterBusy status byte p k) ≠ .goOn u := by
    intro k u _ hclear hgo
    cases (sendCommandRound_clear hclear).symm.trans hgo
  have hpath := fun t => visits_path_iff (t := t) (sendCommandRound_busy byte p) hend
  rw [afterBusy_zero] at hpath
  constructor
  · intro h
    obtain ⟨t, ht, hleave⟩ := h.exists_visits
    obtain ⟨k, hbusy, rfl⟩ := (hpath t).mp ht
    by_cases hk : Busy (status (p.statusReads + k))
    · cases (sendCommandRound_busy byte p k hk).symm.trans hleave
    · cases (sendCommandRound_clear hk).symm.trans hleave
      exact ⟨k, ⟨hbusy, hk⟩, rfl⟩
  · rintro ⟨k, ⟨hbusy, hclear⟩, rfl⟩
    have ht := (hpath _).mpr ⟨k, hbusy, rfl⟩
    exact ht.returns (returns_of_leave (sendCommandRound_clear hclear))

/-- Nothing is written after a status read that was not busy: that read is the last access. -/
theorem not_sendsOnce : ¬ SendsOnce status byte p := by
  rintro ⟨p', sent, hsend, hlog, pre, post, hsent, _, v, hv, hclear⟩
  obtain ⟨k, ⟨hbusy, _⟩, rfl⟩ := keyboardSendCommand_iff.mp hsend
  have hrounds : sent = busyRounds status byte p.statusReads k ++
      [.readStatus (status (p.statusReads + k))] := by
    rw [KbPort.readStatus, afterBusy, List.append_assoc] at hlog
    exact (List.append_cancel_left hlog).symm
  have hlast : pre <+: busyRounds status byte p.statusReads k := by
    rw [hsent] at hrounds
    rcases List.eq_nil_or_concat post with rfl | ⟨post, a, rfl⟩
    · have hend := (List.append_inj' hrounds rfl).2
      cases hend
    · rw [List.concat_eq_append, ← List.cons_append, ← List.append_assoc] at hrounds
      exact ⟨_, (List.append_inj' hrounds rfl).1⟩
  exact hclear (busy_of_mem_busyRounds hbusy (hlast.subset hv))

theorem command_never_sent (status : ℕ → BitVec 8) (byte : BitVec 8) (p : KbPort) :
    ¬ SendsOnce status byte p ∧ ¬ EnablesScanning status := by
  refine ⟨not_sendsOnce, ?_⟩
  rintro ⟨p, _, hsend⟩
  exact not_sendsOnce hsend

/-- A controller that is always ready never gets the byte. -/
theorem command_lost : ¬ ∀ status byte p, (∃ n, p.statusReads ≤ n ∧ ¬ Busy (status n)) →
    SendsOnce status byte p := by
  intro h
  exact not_sendsOnce (h (fun _ => 0#8) 0xF4#8 ⟨0, []⟩ ⟨0, by decide, by decide⟩)

end KnutOS
