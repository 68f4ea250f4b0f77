import Mathlib.Algebra.Order.Monoid.Unbundled.WithTop
import Mathlib.Data.List.Basic
import Mathlib.Data.List.Nodup
import Mathlib.Data.Prod.Lex
import Mathlib.Order.WithBot
import Coalestra.Lib.WaitsFor

/-! # Fair locks taken in order

Parties take numbered locks one after another and give all of them back together. A lock is handed
to the first in its queue, and a party gets it without queueing only when it is free and nobody
queues. `Sound` says that every taken lock has one holder and that a party queues only for the lock
it needs next; parties that take their locks in ascending order never wait in a circle
(`Sound.acyclic`). A party that stands at a lock another party comes to need later is gone before
that one has all its locks (`Ahead`). -/

namespace Coalestra
set_option autoImplicit false
set_option maxHeartbeats 250000

open Relation

/-- A party with the locks it holds and those it still needs. -/
inductive LockParty
  | taking (held needed : List ℕ)
  | gone
  deriving DecidableEq, Repr

namespace LockParty

def held : LockParty → List ℕ
  | taking held _ => held
  | gone => []

def needed : LockParty → List ℕ
  | taking _ needed => needed
  | gone => []

@[simp] theorem held_taking (held needed : List ℕ) : (taking held needed).held = held := rfl

@[simp] theorem held_gone : gone.held = [] := rfl

@[simp] theorem needed_taking (held needed : List ℕ) : (taking held needed).needed = needed := rfl

@[simp] theorem needed_gone : gone.needed = [] := rfl

end LockParty

/-- Which locks are taken, who queues for them, and the parties. -/
structure LockTable where
  locked : ℕ → Bool
  waiters : ℕ → List ℕ
  parties : List LockParty

namespace LockTable

def new : LockTable := ⟨fun _ => false, fun _ => [], []⟩

/-- Where the party `c` stands; a party that has not come yet is gone. -/
def party (t : LockTable) (c : ℕ) : LockParty := t.parties[c]?.getD .gone

/-- `acquire` does not block. -/
def free (t : LockTable) (l : ℕ) : Bool := !t.locked l && (t.waiters l).isEmpty

def take (t : LockTable) (c l : ℕ) : LockTable where
  locked := fun m => if m = l then true else t.locked m
  waiters := t.waiters
  parties := t.parties.set c (.taking ((t.party c).held ++ [l]) (t.party c).needed.tail)

def enqueue (t : LockTable) (c l : ℕ) : LockTable :=
  { t with waiters := fun m => if m = l then t.waiters m ++ [c] else t.waiters m }

def dequeue (t : LockTable) (c : ℕ) : LockTable :=
  { t with waiters := fun m => (t.waiters m).filter (· ≠ c) }

/-- The party takes the locks it needs until one is not free. -/
def sweep (c : ℕ) : List ℕ → LockTable → LockTable
  | [], t => t
  | l :: needed, t => if t.free l then sweep c needed (t.take c l) else t.enqueue c l

/-- A new party comes. -/
def arrive (t : LockTable) (needed : List ℕ) : LockTable :=
  sweep t.parties.length needed { t with parties := t.parties ++ [.taking [] needed] }

/-- The first in the queue of a free lock gets it and goes on. -/
def resume (t : LockTable) (c : ℕ) : Option LockTable :=
  match (t.party c).needed with
  | [] => none
  | l :: needed =>
    if t.locked l = false ∧ (t.waiters l).head? = some c then
      some (sweep c needed ((t.dequeue c).take c l))
    else none

/-- The party gives its locks back, wherever it stands. -/
def leave (t : LockTable) (c : ℕ) : LockTable where
  locked := fun m => t.locked m && decide (m ∉ (t.party c).held)
  waiters := fun m => (t.waiters m).filter (· ≠ c)
  parties := t.parties.set c .gone

/-- The party has all its locks. -/
def Inside (t : LockTable) (c : ℕ) : Prop := ∃ held, t.party c = .taking held []

theorem party_set {t : LockTable} {c : ℕ} (hc : c < t.parties.length) (p : LockParty) (d : ℕ) :
    (t.parties.set c p)[d]?.getD .gone = if d = c then p else t.party d := by
  rw [List.getElem?_set]
  by_cases h : d = c
  · rw [if_pos h, if_pos h.symm, if_pos (h ▸ hc), Option.getD_some]
  · rw [if_neg h, if_neg fun h' => h h'.symm, party]

theorem lt_of_needed {t : LockTable} {c : ℕ} (h : (t.party c).needed ≠ []) :
    c < t.parties.length := by
  by_contra hc
  rw [party, List.getElem?_eq_none (by omega)] at h
  exact h rfl

/-- What holds in every state. -/
structure Sound (t : LockTable) : Prop where
  locked : ∀ c, ∀ l ∈ (t.party c).held, t.locked l = true
  owned : ∀ l, t.locked l = true → ∃ c, l ∈ (t.party c).held
  exclusive : ∀ c d l, l ∈ (t.party c).held → l ∈ (t.party d).held → c = d
  queued : ∀ c l, c ∈ t.waiters l → (t.party c).needed.head? = some l
  nodup : ∀ l, (t.waiters l).Nodup
  ascending : ∀ c, ((t.party c).held ++ (t.party c).needed).Pairwise (· < ·)

theorem sound_new : Sound new :=
  ⟨fun _ _ h => (List.not_mem_nil h).elim, nofun, fun _ _ _ h => (List.not_mem_nil h).elim,
    fun _ _ h => (List.not_mem_nil h).elim, fun _ => List.nodup_nil, fun _ => List.Pairwise.nil⟩

/-! ## One lock -/

section
variable {t : LockTable} {c l : ℕ} {rest : List ℕ}

theorem take_party (hneeded : (t.party c).needed = l :: rest) (d : ℕ) : (t.take c l).party d =
    if d = c then .taking ((t.party c).held ++ [l]) rest else t.party d := by
  have hc : c < t.parties.length := lt_of_needed (by rw [hneeded]; exact List.cons_ne_nil _ _)
  rw [show rest = (t.party c).needed.tail by rw [hneeded]; rfl]
  exact party_set hc _ d

theorem take_held (hneeded : (t.party c).needed = l :: rest) (d m : ℕ) :
    m ∈ ((t.take c l).party d).held ↔ m ∈ (t.party d).held ∨ d = c ∧ m = l := by
  rw [take_party hneeded]
  by_cases hd : d = c
  · rw [if_pos hd, hd]
    simp
  · rw [if_neg hd]
    simp [hd]

/-- A free lock that nobody queues for, or one whose queue the party has just left. -/
theorem Sound.take (h : t.Sound) (hneeded : (t.party c).needed = l :: rest)
    (hfree : t.locked l = false) (hout : ∀ m, c ∉ t.waiters m) : (t.take c l).Sound := by
  have hnew : ∀ d, l ∉ (t.party d).held := by
    intro d hd
    have hlocked := h.locked d l hd
    rw [hfree] at hlocked
    cases hlocked
  refine ⟨?_, ?_, ?_, ?_, h.nodup, ?_⟩
  · intro d m hm
    rcases (take_held hneeded d m).mp hm with hm | ⟨-, rfl⟩
    · show (if m = l then true else t.locked m) = true
      rw [h.locked d m hm, ite_self]
    · exact if_pos rfl
  · intro m hm
    by_cases hml : m = l
    · exact ⟨c, (take_held hneeded c m).mpr (.inr ⟨rfl, hml⟩)⟩
    · have hm' : t.locked m = true := by
        rw [← hm]
        exact (if_neg hml).symm
      obtain ⟨d, hd⟩ := h.owned m hm'
      exact ⟨d, (take_held hneeded d m).mpr (.inl hd)⟩
  · intro d e m hd he
    rcases (take_held hneeded d m).mp hd with hd | ⟨hdc, hdl⟩
    · rcases (take_held hneeded e m).mp he with he | ⟨-, hel⟩
      · exact h.exclusive d e m hd he
      · exact absurd (hel ▸ hd) (hnew d)
    · rcases (take_held hneeded e m).mp he with he | ⟨hec, -⟩
      · exact absurd (hdl ▸ he) (hnew e)
      · rw [hdc, hec]
  · intro d m hd
    have hne : d ≠ c := fun heq => hout m (heq ▸ hd)
    rw [take_party hneeded, if_neg hne]
    exact h.queued d m hd
  · intro d
    rw [take_party hneeded]
    by_cases hd : d = c
    · have hasc := h.ascending c
      rw [hneeded] at hasc
      rw [if_pos hd]
      simpa using hasc
    · rw [if_neg hd]
      exact h.ascending d

theorem mem_enqueue {d m : ℕ} :
    d ∈ (t.enqueue c l).waiters m ↔ d ∈ t.waiters m ∨ d = c ∧ m = l := by
  show d ∈ (if m = l then t.waiters m ++ [c] else t.waiters m) ↔ _
  by_cases hm : m = l
  · rw [if_pos hm]
    simp [hm]
  · rw [if_neg hm]
    simp [hm]

theorem Sound.enqueue (h : t.Sound) (hneeded : (t.party c).needed = l :: rest)
    (hout : ∀ m, c ∉ t.waiters m) : (t.enqueue c l).Sound := by
  refine ⟨h.locked, h.owned, h.exclusive, ?_, ?_, h.ascending⟩
  · intro d m hd
    rcases mem_enqueue.mp hd with hd | ⟨rfl, rfl⟩
    · exact h.queued d m hd
    · show (t.party d).needed.head? = some m
      rw [hneeded, List.head?_cons]
  · intro m
    show (if m = l then t.waiters m ++ [c] else t.waiters m).Nodup
    by_cases hm : m = l
    · rw [if_pos hm, List.nodup_append]
      refine ⟨h.nodup m, List.nodup_singleton c, fun a ha b hb hab => ?_⟩
      rw [List.mem_singleton] at hb
      exact hout m (hb ▸ hab ▸ ha)
    · rw [if_neg hm]
      exact h.nodup m

theorem mem_dequeue {d m : ℕ} : d ∈ (t.dequeue c).waiters m ↔ d ∈ t.waiters m ∧ d ≠ c := by
  show d ∈ (t.waiters m).filter (· ≠ c) ↔ _
  rw [List.mem_filter, decide_eq_true_eq]

theorem Sound.dequeue (h : t.Sound) (c : ℕ) : (t.dequeue c).Sound :=
  ⟨h.locked, h.owned, h.exclusive, fun d m hd => h.queued d m (mem_dequeue.mp hd).1,
    fun m => (h.nodup m).filter _, h.ascending⟩

end

/-! ## The operations -/

/-- What taking and queueing keep, a sweep keeps. -/
theorem sweep_keeps {c : ℕ} (P : LockTable → Prop)
    (htake : ∀ t l rest, t.Sound → (t.party c).needed = l :: rest → t.locked l = false →
      t.waiters l = [] → (∀ m, c ∉ t.waiters m) → P t → P (t.take c l))
    (henqueue : ∀ t l rest, t.Sound → (t.party c).needed = l :: rest → (∀ m, c ∉ t.waiters m) →
      P t → P (t.enqueue c l)) :
    ∀ (needed : List ℕ) (t : LockTable), t.Sound → (t.party c).needed = needed →
      (∀ m, c ∉ t.waiters m) → P t → (sweep c needed t).Sound ∧ P (sweep c needed t)
  | [], t, h, _, _, hP => ⟨h, hP⟩
  | l :: needed, t, h, hneeded, hout, hP => by
      rw [sweep]
      split
      · rename_i hfree
        rw [free, Bool.and_eq_true, Bool.not_eq_true', List.isEmpty_iff] at hfree
        refine sweep_keeps P htake henqueue needed _ (h.take hneeded hfree.1 hout) ?_ hout
          (htake t l needed h hneeded hfree.1 hfree.2 hout hP)
        rw [take_party hneeded, if_pos rfl, LockParty.needed_taking]
      · exact ⟨h.enqueue hneeded hout, henqueue t l needed h hneeded hout hP⟩

theorem arrive_party (t : LockTable) (needed : List ℕ) (d : ℕ) :
    ({ t with parties := t.parties ++ [.taking [] needed] } : LockTable).party d =
      if d = t.parties.length then .taking [] needed else t.party d := by
  show (t.parties ++ [LockParty.taking [] needed])[d]?.getD .gone = _
  rw [List.getElem?_append]
  by_cases hd : d < t.parties.length
  · rw [if_pos hd, if_neg (by omega), party]
  · rw [if_neg hd]
    by_cases hlast : d = t.parties.length
    · rw [if_pos hlast, hlast, Nat.sub_self]
      rfl
    · rw [if_neg hlast, List.getElem?_eq_none (by simp; omega), party,
        List.getElem?_eq_none (by omega)]

theorem party_new {t : LockTable} {c : ℕ} (hc : t.parties.length ≤ c) : t.party c = .gone := by
  rw [party, List.getElem?_eq_none hc]
  rfl

theorem Sound.not_queued {t : LockTable} (h : t.Sound) {c : ℕ} (hc : (t.party c).needed = [])
    (m : ℕ) : c ∉ t.waiters m := by
  intro hm
  have hq := h.queued c m hm
  rw [hc] at hq
  cases hq

/-- The table with the new party in it, before it takes anything. -/
theorem Sound.come {t : LockTable} (h : t.Sound) {needed : List ℕ}
    (hasc : needed.Pairwise (· < ·)) :
    ({ t with parties := t.parties ++ [.taking [] needed] } : LockTable).Sound := by
  have hheld : ∀ d, (({ t with parties := t.parties ++ [.taking [] needed] } : LockTable).party
      d).held = (t.party d).held := by
    intro d
    rw [arrive_party]
    by_cases hd : d = t.parties.length
    · rw [if_pos hd, party_new hd.ge]
      rfl
    · rw [if_neg hd]
  refine ⟨?_, ?_, ?_, ?_, h.nodup, ?_⟩
  · intro d m hm
    rw [hheld] at hm
    exact h.locked d m hm
  · intro m hm
    obtain ⟨d, hd⟩ := h.owned m hm
    exact ⟨d, by rwa [hheld]⟩
  · intro d e m hd he
    rw [hheld] at hd he
    exact h.exclusive d e m hd he
  · intro d m hd
    have hne : d ≠ t.parties.length := by
      rintro rfl
      exact h.not_queued (by rw [party_new le_rfl]; rfl) m hd
    rw [arrive_party, if_neg hne]
    exact h.queued d m hd
  · intro d
    rw [arrive_party]
    by_cases hd : d = t.parties.length
    · rw [if_pos hd]
      exact hasc
    · rw [if_neg hd]
      exact h.ascending d

/-- What holds of the table with the new party in it, and is kept by taking and queueing, holds
after its first sweep. -/
theorem arrive_keeps {t : LockTable} (h : t.Sound) {needed : List ℕ}
    (hasc : needed.Pairwise (· < ·)) (P : LockTable → Prop)
    (htake : ∀ t' l rest, t'.Sound → (t'.party t.parties.length).needed = l :: rest →
      t'.locked l = false → t'.waiters l = [] → (∀ m, t.parties.length ∉ t'.waiters m) → P t' →
      P (t'.take t.parties.length l))
    (henqueue : ∀ t' l rest, t'.Sound → (t'.party t.parties.length).needed = l :: rest →
      (∀ m, t.parties.length ∉ t'.waiters m) → P t' → P (t'.enqueue t.parties.length l))
    (hP : P { t with parties := t.parties ++ [.taking [] needed] }) :
    (t.arrive needed).Sound ∧ P (t.arrive needed) := by
  refine sweep_keeps P htake henqueue needed _ (h.come hasc) ?_ ?_ hP
  · rw [arrive_party, if_pos rfl]
    rfl
  · exact h.not_queued (by rw [party_new le_rfl]; rfl)

/-- What leaving the queue, taking and queueing keep, a resumption keeps. -/
theorem resume_keeps {t t' : LockTable} {c : ℕ} (h : t.Sound) (hs : t.resume c = some t')
    (P : LockTable → Prop)
    (hfirst : ∀ l rest, (t.party c).needed = l :: rest → t.locked l = false →
      (t.waiters l).head? = some c → P ((t.dequeue c).take c l))
    (htake : ∀ t l rest, t.Sound → (t.party c).needed = l :: rest → t.locked l = false →
      t.waiters l = [] → (∀ m, c ∉ t.waiters m) → P t → P (t.take c l))
    (henqueue : ∀ t l rest, t.Sound → (t.party c).needed = l :: rest → (∀ m, c ∉ t.waiters m) →
      P t → P (t.enqueue c l)) : t'.Sound ∧ P t' := by
  unfold resume at hs
  split at hs
  · cases hs
  · rename_i l rest hneeded
    split at hs
    · rename_i hturn
      cases hs
      have hout : ∀ m, c ∉ (t.dequeue c).waiters m := fun m hm => (mem_dequeue.mp hm).2 rfl
      have hneeded' : ((t.dequeue c).party c).needed = l :: rest := hneeded
      refine sweep_keeps P htake henqueue rest _
        ((h.dequeue c).take hneeded' hturn.1 hout) ?_ hout (hfirst l rest hneeded hturn.1 hturn.2)
      rw [take_party hneeded', if_pos rfl, LockParty.needed_taking]
    · cases hs

theorem leave_party (t : LockTable) (c d : ℕ) :
    (t.leave c).party d = if d = c then .gone else t.party d := by
  show (t.parties.set c .gone)[d]?.getD .gone = _
  by_cases hc : c < t.parties.length
  · exact party_set hc _ d
  · rw [List.set_eq_of_length_le (by omega)]
    by_cases hd : d = c
    · rw [if_pos hd, List.getElem?_eq_none (by omega)]
      rfl
    · rw [if_neg hd, party]

theorem Sound.leave {t : LockTable} (h : t.Sound) (c : ℕ) : (t.leave c).Sound := by
  have hheld : ∀ d m, m ∈ ((t.leave c).party d).held ↔ m ∈ (t.party d).held ∧ d ≠ c := by
    intro d m
    rw [leave_party]
    by_cases hd : d = c
    · rw [if_pos hd]
      simp [hd]
    · rw [if_neg hd]
      simp [hd]
  refine ⟨?_, ?_, ?_, ?_, ?_, ?_⟩
  · intro d m hm
    obtain ⟨hm, hd⟩ := (hheld d m).mp hm
    show (t.locked m && decide (m ∉ (t.party c).held)) = true
    rw [h.locked d m hm, Bool.true_and, decide_eq_true_eq]
    exact fun hmc => hd (h.exclusive d c m hm hmc)
  · intro m hm
    have hm' : (t.locked m && decide (m ∉ (t.party c).held)) = true := hm
    rw [Bool.and_eq_true, decide_eq_true_eq] at hm'
    obtain ⟨d, hd⟩ := h.owned m hm'.1
    exact ⟨d, (hheld d m).mpr ⟨hd, fun hdc => hm'.2 (hdc ▸ hd)⟩⟩
  · intro d e m hd he
    exact h.exclusive d e m ((hheld d m).mp hd).1 ((hheld e m).mp he).1
  · intro d m hd
    have hd' : d ∈ (t.waiters m).filter (· ≠ c) := hd
    rw [List.mem_filter, decide_eq_true_eq] at hd'
    rw [leave_party, if_neg hd'.2]
    exact h.queued d m hd'.1
  · exact fun m => (h.nodup m).filter _
  · intro d
    rw [leave_party]
    by_cases hd : d = c
    · rw [if_pos hd]
      exact List.Pairwise.nil
    · rw [if_neg hd]
      exact h.ascending d

theorem Sound.arrive {t : LockTable} (h : t.Sound) {needed : List ℕ}
    (hasc : needed.Pairwise (· < ·)) : (t.arrive needed).Sound :=
  (arrive_keeps h hasc (fun _ => True) (fun _ _ _ _ _ _ _ _ _ => trivial)
    (fun _ _ _ _ _ _ _ => trivial) trivial).1

theorem Sound.resume {t t' : LockTable} {c : ℕ} (h : t.Sound) (hs : t.resume c = some t') :
    t'.Sound :=
  (resume_keeps h hs (fun _ => True) (fun _ _ _ _ _ => trivial)
    (fun _ _ _ _ _ _ _ _ _ => trivial) (fun _ _ _ _ _ _ _ => trivial)).1

/-- A step of the party `c`, whose locks are `locks`, on the way from `t` to `t'`. -/
structure Advanced (t t' : LockTable) (c : ℕ) (locks : List ℕ) : Prop where
  others : ∀ d, d ≠ c → t'.party d = t.party d
  own : ∃ held needed, t'.party c = .taking held needed ∧ held ++ needed = locks

section
variable {t t' : LockTable} {c l : ℕ} {rest locks : List ℕ}

theorem Advanced.take (h : t.Advanced t' c locks) (hneeded : (t'.party c).needed = l :: rest) :
    t.Advanced (t'.take c l) c locks := by
  refine ⟨fun d hd => by rw [take_party hneeded, if_neg hd, h.others d hd], ?_⟩
  obtain ⟨held, needed, hparty, hlocks⟩ := h.own
  rw [hparty, LockParty.needed_taking] at hneeded
  refine ⟨held ++ [l], rest, ?_, ?_⟩
  · rw [take_party (by rw [hparty, hneeded]; rfl), if_pos rfl, hparty]
    rfl
  · rw [List.append_assoc, List.singleton_append, ← hneeded, hlocks]

theorem sweep_length (c : ℕ) : ∀ (needed : List ℕ) (t : LockTable),
    (sweep c needed t).parties.length = t.parties.length
  | [], _ => rfl
  | l :: needed, t => by
      rw [sweep]
      split
      · rw [sweep_length c needed]
        exact List.length_set
      · rfl

theorem arrive_length (t : LockTable) (needed : List ℕ) :
    (t.arrive needed).parties.length = t.parties.length + 1 := by
  rw [arrive, sweep_length, List.length_append, List.length_singleton]

theorem resume_length (hs : t.resume c = some t') : t'.parties.length = t.parties.length := by
  unfold resume at hs
  split at hs
  · cases hs
  · split at hs
    · cases hs
      rw [sweep_length]
      exact List.length_set
    · cases hs

@[simp] theorem leave_length (t : LockTable) (c : ℕ) :
    (t.leave c).parties.length = t.parties.length := List.length_set

theorem arrive_advanced (h : t.Sound) (hasc : locks.Pairwise (· < ·)) :
    t.Advanced (t.arrive locks) t.parties.length locks := by
  refine (arrive_keeps h hasc (fun t' => t.Advanced t' t.parties.length locks)
    (fun _ _ _ _ hneeded _ _ _ hP => hP.take hneeded) (fun _ _ _ _ _ _ hP => ⟨hP.others, hP.own⟩) ?_).2
  refine ⟨fun d hd => by rw [arrive_party, if_neg hd], [], locks, ?_, rfl⟩
  rw [arrive_party, if_pos rfl]

theorem resume_advanced (h : t.Sound) (hs : t.resume c = some t')
    (hlocks : (t.party c).held ++ (t.party c).needed = locks) : t.Advanced t' c locks := by
  refine (resume_keeps h hs (fun t' => t.Advanced t' c locks) ?_
    (fun _ _ _ _ hneeded _ _ _ hP => hP.take hneeded) fun _ _ _ _ _ _ hP => ⟨hP.others, hP.own⟩).2
  intro l rest hneeded _ _
  have hstart : t.Advanced (t.dequeue c) c locks := by
    refine ⟨fun _ _ => rfl, ?_⟩
    cases hparty : t.party c with
    | gone => rw [hparty] at hneeded; cases hneeded
    | taking held needed => exact ⟨held, needed, hparty, by rwa [hparty] at hlocks⟩
  exact hstart.take hneeded

end

/-! ## Waiting -/

/-- `a` queues for a lock that `b` holds, or queues for before it. -/
def WaitsFor (t : LockTable) (a b : ℕ) : Prop :=
  ∃ l, a ∈ t.waiters l ∧ (l ∈ (t.party b).held ∨ [b, a].Sublist (t.waiters l))

theorem idxOf_lt_of_sublist {a b : ℕ} : ∀ {ws : List ℕ}, ws.Nodup → [b, a].Sublist ws →
    ws.idxOf b < ws.idxOf a
  | [], _, h => by cases h
  | w :: ws, hnd, h => by
      rw [List.nodup_cons] at hnd
      cases h with
      | cons _ h =>
        have hb : b ∈ ws := h.subset List.mem_cons_self
        have ha : a ∈ ws := h.subset (List.mem_cons_of_mem _ List.mem_cons_self)
        have hlt := idxOf_lt_of_sublist hnd.2 h
        rw [List.idxOf_cons_ne _ fun he : w = b => hnd.1 (he ▸ hb),
          List.idxOf_cons_ne _ fun he : w = a => hnd.1 (he ▸ ha)]
        omega
      | cons_cons _ h =>
        have ha : a ∈ ws := h.subset List.mem_cons_self
        rw [List.idxOf_cons_self, List.idxOf_cons_ne _ fun he : b = a => hnd.1 (he ▸ ha)]
        omega

/-- The lock a party needs next, above every lock when it needs none. -/
def nextLock (t : LockTable) (c : ℕ) : WithTop ℕ :=
  match (t.party c).needed with
  | [] => ⊤
  | l :: _ => l

/-- Where a party stands: later locks first, then the place in the queue. -/
def standing (t : LockTable) (c : ℕ) : (WithTop ℕ)ᵒᵈ ×ₗ ℕ :=
  toLex (OrderDual.toDual (t.nextLock c), (t.waiters ((t.party c).needed.head?.getD 0)).idxOf c)

/-- The waits-for relation has no cycle. -/
theorem Sound.acyclic {t : LockTable} (h : t.Sound) : Acyclic t.WaitsFor := by
  refine Acyclic.of_lt t.standing fun a b hab => ?_
  obtain ⟨l, ha, hb⟩ := hab
  have hqa := h.queued a l ha
  have hna : t.nextLock a = l := by
    unfold nextLock
    cases hneeded : (t.party a).needed with
    | nil => rw [hneeded] at hqa; cases hqa
    | cons m rest =>
      rw [hneeded, List.head?_cons, Option.some.injEq] at hqa
      rw [hqa]
  rw [standing, standing, Prod.Lex.toLex_lt_toLex]
  rcases hb with hb | hb
  · -- The holder needs only locks above the one it holds.
    refine .inl (OrderDual.toDual_lt_toDual.mpr ?_)
    rw [hna]
    unfold nextLock
    cases hneeded : (t.party b).needed with
    | nil => exact WithTop.coe_lt_top l
    | cons m rest =>
      have hasc := h.ascending b
      rw [hneeded, List.pairwise_append] at hasc
      exact WithTop.coe_lt_coe.mpr (hasc.2.2 l hb m List.mem_cons_self)
  · have hbw : b ∈ t.waiters l := hb.subset List.mem_cons_self
    have hqb := h.queued b l hbw
    have hnb : t.nextLock b = l := by
      unfold nextLock
      cases hneeded : (t.party b).needed with
      | nil => rw [hneeded] at hqb; cases hqb
      | cons m rest =>
        rw [hneeded, List.head?_cons, Option.some.injEq] at hqb
        rw [hqb]
    refine .inr ⟨by rw [hna, hnb], ?_⟩
    rw [hqa, hqb, Option.getD_some]
    exact idxOf_lt_of_sublist (h.nodup l) hb

/-! ## Order -/

/-- The party has come to the lock. -/
def At (t : LockTable) (c l : ℕ) : Prop := l ∈ (t.party c).held ∨ c ∈ t.waiters l

/-- The party `a` will be gone before `b` has the lock `l`. -/
def Ahead (t : LockTable) (a b l : ℕ) : Prop :=
  t.party a = .gone ∨ l ∈ (t.party b).needed ∧
    (l ∈ (t.party a).held ∨ a ∈ t.waiters l ∧ (b ∈ t.waiters l → [a, b].Sublist (t.waiters l)))

/-- A party with all its locks finds the others gone that were ahead of it. -/
theorem Ahead.gone {t : LockTable} {a b l : ℕ} (h : t.Ahead a b l) (hb : (t.party b).needed = []) :
    t.party a = .gone := by
  rcases h with h | ⟨h, -⟩
  · exact h
  · rw [hb] at h
    exact (List.not_mem_nil h).elim

section
variable {t : LockTable} {a b c l m : ℕ} {rest : List ℕ}

theorem Sound.head_needed (h : t.Sound) (ha : a ∈ t.waiters l)
    (hneeded : (t.party a).needed = m :: rest) : m = l := by
  have hq := h.queued a l ha
  rw [hneeded, List.head?_cons, Option.some.injEq] at hq
  exact hq

/-- A lock that is free and has no queue is not the one the two meet at. -/
theorem Ahead.take (hs : t.Sound) (h : t.Ahead a b l)
    (hneeded : (t.party c).needed = m :: rest) (hfree : t.locked m = false)
    (hempty : t.waiters m = []) : (t.take c m).Ahead a b l := by
  rcases h with h | ⟨hbl, h⟩
  · refine .inl ?_
    have hac : a ≠ c := by
      rintro rfl
      rw [h] at hneeded
      cases hneeded
    rw [take_party hneeded, if_neg hac, h]
  · have hml : l ≠ m := by
      rintro rfl
      rcases h with h | ⟨ha, -⟩
      · have hlocked := hs.locked a l h
        rw [hfree] at hlocked
        cases hlocked
      · rw [hempty] at ha
        exact List.not_mem_nil ha
    refine .inr ⟨?_, ?_⟩
    · rw [take_party hneeded]
      by_cases hbc : b = c
      · rw [if_pos hbc, LockParty.needed_taking]
        rw [hbc, hneeded] at hbl
        exact (List.mem_cons.mp hbl).resolve_left hml
      · rw [if_neg hbc]
        exact hbl
    · rcases h with h | ⟨ha, hq⟩
      · exact .inl ((take_held hneeded a l).mpr (.inl h))
      · exact .inr ⟨ha, hq⟩

theorem Ahead.enqueue (h : t.Ahead a b l) : (t.enqueue c m).Ahead a b l := by
  rcases h with h | ⟨hbl, h⟩
  · exact .inl h
  · refine .inr ⟨hbl, ?_⟩
    rcases h with h | ⟨ha, hq⟩
    · exact .inl h
    · refine .inr ⟨mem_enqueue.mpr (.inl ha), fun hb => ?_⟩
      show [a, b].Sublist (if l = m then t.waiters l ++ [c] else t.waiters l)
      rcases mem_enqueue.mp hb with hb | ⟨rfl, rfl⟩
      · by_cases hlm : l = m
        · rw [if_pos hlm]
          exact (hq hb).trans (List.sublist_append_left _ _)
        · rw [if_neg hlm]
          exact hq hb
      · rw [if_pos rfl]
        exact (List.singleton_sublist.mpr ha).append (List.Sublist.refl [b])

theorem filter_pair (hac : a ≠ c) (hbc : b ≠ c) {ws : List ℕ} (h : [a, b].Sublist ws) :
    [a, b].Sublist (ws.filter (· ≠ c)) := by
  have hf := h.filter (· ≠ c)
  rwa [List.filter_eq_self.mpr fun x hx => ?_] at hf
  rcases List.mem_cons.mp hx with rfl | hx
  · exact decide_eq_true hac
  · rw [List.mem_singleton] at hx
    exact decide_eq_true (hx ▸ hbc)

/-- The queue has advanced to `c`, which takes its turn. -/
theorem Ahead.turn (hs : t.Sound) (h : t.Ahead a b l) (hab : a ≠ b)
    (hneeded : (t.party c).needed = m :: rest) (hfree : t.locked m = false)
    (hhead : (t.waiters m).head? = some c) : ((t.dequeue c).take c m).Ahead a b l := by
  have hc : c ∈ t.waiters m := List.mem_of_head? hhead
  have hneeded' : ((t.dequeue c).party c).needed = m :: rest := hneeded
  rcases h with h | ⟨hbl, h⟩
  · refine .inl ?_
    have hac : a ≠ c := by
      rintro rfl
      rw [h] at hneeded
      cases hneeded
    rw [take_party hneeded', if_neg hac]
    exact h
  · -- The party behind is not at the head of that queue.
    have hbc : c = b → m ≠ l := by
      rintro rfl rfl
      rcases h with h | ⟨-, hq⟩
      · have hlocked := hs.locked a m h
        rw [hfree] at hlocked
        cases hlocked
      · obtain ⟨ws, hws⟩ : ∃ ws, t.waiters m = c :: ws := by
          cases hw : t.waiters m with
          | nil => rw [hw] at hhead; cases hhead
          | cons w ws =>
            rw [hw, List.head?_cons, Option.some.injEq] at hhead
            exact ⟨ws, by rw [hhead]⟩
        have hsub := hq hc
        have hnd := hs.nodup m
        rw [hws] at hsub hnd
        rw [List.nodup_cons] at hnd
        cases hsub with
        | cons _ hsub => exact hnd.1 (hsub.subset (List.mem_cons_of_mem _ List.mem_cons_self))
        | cons_cons _ _ => exact hab rfl
    refine .inr ⟨?_, ?_⟩
    · rw [take_party hneeded']
      by_cases heq : b = c
      · rw [if_pos heq, LockParty.needed_taking]
        rw [heq, hneeded] at hbl
        exact (List.mem_cons.mp hbl).resolve_left fun he => hbc heq.symm he.symm
      · rw [if_neg heq]
        exact hbl
    · rcases h with h | ⟨ha, hq⟩
      · exact .inl ((take_held hneeded' a l).mpr (.inl h))
      · by_cases hac : a = c
        · refine .inl ((take_held hneeded' a l).mpr (.inr ⟨hac, ?_⟩))
          exact (hs.head_needed (hac ▸ ha) hneeded).symm
        · refine .inr ⟨mem_dequeue.mpr ⟨ha, hac⟩, fun hb => ?_⟩
          obtain ⟨hb, hne⟩ := mem_dequeue.mp hb
          exact filter_pair hac hne (hq hb)

theorem Ahead.leave (h : t.Ahead a b l) (hbc : b ≠ c) : (t.leave c).Ahead a b l := by
  by_cases hac : a = c
  · exact .inl (by rw [leave_party, if_pos hac])
  · rcases h with h | ⟨hbl, h⟩
    · exact .inl (by rw [leave_party, if_neg hac, h])
    · refine .inr ⟨by rwa [leave_party, if_neg hbc], ?_⟩
      rcases h with h | ⟨ha, hq⟩
      · exact .inl (by rwa [leave_party, if_neg hac])
      · have hmem : ∀ d, d ∈ (t.leave c).waiters l ↔ d ∈ t.waiters l ∧ d ≠ c := by
          intro d
          show d ∈ (t.waiters l).filter (· ≠ c) ↔ _
          rw [List.mem_filter, decide_eq_true_eq]
        exact .inr ⟨(hmem a).mpr ⟨ha, hac⟩, fun hb => filter_pair hac hbc (hq ((hmem b).mp hb).1)⟩

theorem Ahead.resume {t' : LockTable} (h : t.Ahead a b l) (hs : t.Sound) (hab : a ≠ b)
    (hr : t.resume c = some t') : t'.Ahead a b l :=
  (resume_keeps hs hr (fun t' => t'.Ahead a b l)
    (fun _ _ hneeded hfree hhead => h.turn hs hab hneeded hfree hhead)
    (fun _ _ _ hsound hneeded hfree hempty _ hP => hP.take hsound hneeded hfree hempty)
    fun _ _ _ _ _ _ hP => hP.enqueue).2

theorem Ahead.arrive {needed : List ℕ} (h : t.Ahead a b l) (hs : t.Sound)
    (hasc : needed.Pairwise (· < ·)) (ha : a < t.parties.length) :
    (t.arrive needed).Ahead a b l := by
  refine (arrive_keeps hs hasc (fun t' => t'.Ahead a b l)
    (fun _ _ _ hsound hneeded hfree hempty _ hP => hP.take hsound hneeded hfree hempty)
    (fun _ _ _ _ _ _ hP => hP.enqueue) ?_).2
  have hparty : ∀ d, d < t.parties.length →
      ({ t with parties := t.parties ++ [.taking [] needed] } : LockTable).party d =
        t.party d := by
    intro d hd
    rw [arrive_party, if_neg (by omega)]
  rcases h with h | ⟨hbl, h⟩
  · exact .inl (by rw [hparty a ha, h])
  · have hb : b < t.parties.length := lt_of_needed (List.ne_nil_of_mem hbl)
    exact .inr ⟨by rwa [hparty b hb], by rwa [hparty a ha]⟩

/-- The new party is behind everyone who stands at a lock it needs. -/
theorem Sound.arrive_ahead {needed : List ℕ} (h : t.Sound) (hasc : needed.Pairwise (· < ·))
    (ha : a < t.parties.length) (hat : t.At a l) (hl : l ∈ needed) :
    (t.arrive needed).Ahead a t.parties.length l := by
  refine (arrive_keeps h hasc (fun t' => t'.Ahead a t.parties.length l)
    (fun _ _ _ hsound hneeded hfree hempty _ hP => hP.take hsound hneeded hfree hempty)
    (fun _ _ _ _ _ _ hP => hP.enqueue) (.inr ⟨?_, ?_⟩)).2
  · rw [arrive_party, if_pos rfl]
    exact hl
  · rcases hat with hat | hat
    · exact .inl (by rwa [arrive_party, if_neg (by omega)])
    · refine .inr ⟨hat, fun hq => ?_⟩
      exact absurd hq (h.not_queued (by rw [party_new le_rfl]; rfl) l)

end

end LockTable
end Coalestra
