import KnutOS.Foundation.Schedule

/-! A sender that waits for an empty queue before it puts the next item in, and a receiver that
takes items out whenever it likes. -/
namespace Foundation

/-- What is still to be sent, whether the queue has been seen empty for it, what waits, and what has
been taken out. -/
structure Handshake (α : Type*) where
  todo : List α
  ready : Bool
  queue : List α
  delivered : List α

namespace Handshake

inductive Party
  | sender
  | receiver

variable {α : Type*} {room : ℕ} {s : Handshake α} {turn : ℕ → Party}

/-- An item for which there is no room is lost. -/
def send (room : ℕ) (s : Handshake α) : Handshake α :=
  match s.todo with
  | [] => s
  | a :: todo =>
    if s.ready then
      { s with
        todo := todo
        ready := false
        queue := if s.queue.length < room then s.queue ++ [a] else s.queue }
    else { s with ready := s.queue.isEmpty }

def receive (s : Handshake α) : Handshake α :=
  match s.queue with
  | [] => s
  | a :: queue => { s with queue := queue, delivered := s.delivered ++ [a] }

def move (room : ℕ) : Party → Handshake α → Handshake α
  | .sender => send room
  | .receiver => receive

/-- Everything there is, in the order in which it leaves. -/
def all (s : Handshake α) : List α := s.delivered ++ (s.queue ++ s.todo)

/-- Only the receiver empties the queue, so it is still empty when the sender is ready. -/
def Sound (s : Handshake α) : Prop := s.ready = true → s.queue = []

theorem Sound.send (h : s.Sound) : (s.send room).Sound := by
  intro hready
  rw [Handshake.send] at hready ⊢
  split at hready
  · exact h hready
  · split at hready
    · cases hready
    · next hno => simpa [hno] using hready

theorem Sound.receive (h : s.Sound) : s.receive.Sound := by
  intro hready
  rw [Handshake.receive] at hready ⊢
  split
  · next hqueue => exact hqueue
  · next a queue hqueue =>
    rw [hqueue] at hready
    have hempty := h hready
    rw [hqueue] at hempty
    cases hempty

theorem Sound.move (h : s.Sound) (p : Party) : (move room p s).Sound := by
  cases p with
  | sender => exact h.send
  | receiver => exact h.receive

/-- Nothing is lost, and nothing changes its place. -/
theorem all_move (h : s.Sound) (hroom : 0 < room) (p : Party) : (move room p s).all = s.all := by
  cases p with
  | sender =>
    cases htodo : s.todo with
    | nil => simp [Handshake.move, send, htodo, all]
    | cons a todo =>
      cases hready : s.ready with
      | false => simp [Handshake.move, send, htodo, hready, all]
      | true => simp [Handshake.move, send, htodo, hready, all, h hready, hroom]
  | receiver =>
    cases hqueue : s.queue with
    | nil => simp [Handshake.move, Handshake.receive, hqueue, all]
    | cons a queue => simp [Handshake.move, Handshake.receive, hqueue, all]

theorem after_all (turn : ℕ → Party) (h : s.Sound) (hroom : 0 < room) (n : ℕ) :
    (after (move room) turn s n).all = s.all := by
  have hboth : (after (move room) turn s n).Sound ∧ (after (move room) turn s n).all = s.all :=
    after_invariant (I := fun t : Handshake α => t.Sound ∧ t.all = s.all) ⟨h, rfl⟩
      (fun p t ht => ⟨ht.1.move p, (all_move ht.1 hroom p).trans ht.2⟩) n
  exact hboth.2

/-! Progress -/

/-- An item is seen ready, put in and taken out. -/
def work (s : Handshake α) : ℕ :=
  if s.todo = [] then s.queue.length
  else 3 * s.todo.length + s.queue.length + if s.ready then 0 else 1

def Done (s : Handshake α) : Prop := s.todo = [] ∧ s.queue = []

theorem move_eq_or_lt (p : Party) (h : s.Sound) :
    move room p s = s ∨ (move room p s).work < s.work := by
  cases p with
  | sender =>
    cases htodo : s.todo with
    | nil => exact .inl (by simp [Handshake.move, send, htodo])
    | cons a todo =>
      cases hready : s.ready with
      | true =>
        right
        have hqueue := h hready
        by_cases hlast : todo = []
        · simp only [Handshake.move, send, htodo, hready, if_true, work, hlast, hqueue]
          split <;> simp
        · simp only [Handshake.move, send, htodo, hready, if_true, work, hlast, hqueue, if_false]
          split <;> simp <;> omega
      | false =>
        cases hqueue : s.queue with
        | nil => exact .inr (by simp [Handshake.move, send, htodo, hready, hqueue, work])
        | cons b queue =>
          left
          obtain ⟨todo', ready', queue', delivered'⟩ := s
          simp only at htodo hready hqueue
          simp [Handshake.move, send, htodo, hready, hqueue]
  | receiver =>
    cases hqueue : s.queue with
    | nil => exact .inl (by simp [Handshake.move, Handshake.receive, hqueue])
    | cons b queue =>
      right
      simp only [Handshake.move, Handshake.receive, hqueue, work]
      split <;> simp

/-- The sender gets on when the queue is empty, and else the receiver does. -/
theorem exists_helpful (h : s.Sound) (hdone : ¬ s.Done) :
    ∃ p, (move room p s).work < s.work := by
  cases hqueue : s.queue with
  | cons b queue =>
    refine ⟨.receiver, ?_⟩
    have hmove : move room .receiver s = s ∨ _ := move_eq_or_lt .receiver h
    rcases hmove with heq | hlt
    · have hlen := congrArg (fun t => t.queue.length) heq
      simp [Handshake.move, Handshake.receive, hqueue] at hlen
    · exact hlt
  | nil =>
    refine ⟨.sender, ?_⟩
    have hmove : move room .sender s = s ∨ _ := move_eq_or_lt .sender h
    rcases hmove with heq | hlt
    · cases htodo : s.todo with
      | nil => exact absurd ⟨htodo, hqueue⟩ hdone
      | cons a todo =>
        have hready := congrArg Handshake.ready heq
        cases hr : s.ready <;> simp [Handshake.move, send, htodo, hqueue, hr] at hready
    · exact hlt

/-- Whoever moves when, as long as both do again and again: all is delivered, in order. -/
theorem exists_delivered (h : s.Sound) (hroom : 0 < room) (hfair : Fair id turn) :
    ∃ n, (after (move room) turn s n).Done ∧ (after (move room) turn s n).delivered = s.all := by
  have hhelp : ∀ t : Handshake α, t.Sound → ¬ t.Done →
      ∃ p, ∀ q, id q = p → (move room q t).work < t.work := by
    intro t ht hdone
    obtain ⟨p, hp⟩ := exists_helpful ht hdone
    exact ⟨p, fun q hq => by rwa [show q = p from hq]⟩
  obtain ⟨n, hn⟩ := exists_done work h (fun p _ hs => hs.move p)
    (fun p _ hs => move_eq_or_lt p hs) hhelp hfair
  have hall := after_all turn h hroom n
  rw [all, hn.1, hn.2, List.append_nil, List.append_nil] at hall
  exact ⟨n, hn, hall⟩

end Handshake

end Foundation
