import Coalestra.Cache.Locking
import Coalestra.Lib.Runs

/-! # Submissions of the synchronous facade

`sync.py`: the `submit_*` methods of `SyncResourcePublisher` schedule publications and invalidations
on one event loop, which starts them in the order they were scheduled. From there on only the striped
locks of the publisher order them. A call may touch the cache under its keys while it holds all its
locks; which calls it makes is left open. -/

namespace Coalestra
set_option autoImplicit false
set_option maxHeartbeats 250000

/-- An accepted submission. `number` counts them over all producers. -/
structure Submission (K : Type) where
  producer : ℕ
  number : ℕ
  keys : List K

/-- The facade, its event loop and the locks of its publisher. `effects` records what the submissions
did to the cache, in order. -/
structure SyncFacade (K : Type) where
  maxPendingSubmissions : ℕ
  acceptingSubmissions : Bool
  accepted : ℕ
  ready : List (Submission K)
  table : LockTable
  started : List (Submission K)
  effects : List (Submission K × K)

/-- `leave` is any end of a submission, `cancelReady` its cancellation before the loop starts it. -/
inductive SubmissionEvent (K : Type)
  | submit (producer : ℕ) (keys : List K)
  | start
  | resume (i : ℕ)
  | effect (i : ℕ) (k : K)
  | leave (i : ℕ)
  | cancelReady (j : ℕ)
  | close

namespace SyncFacade
variable {K : Type}

def new (maxPendingSubmissions : ℕ) : SyncFacade K :=
  ⟨maxPendingSubmissions, true, 0, [], .new, [], []⟩

/-- The submissions that have not ended. -/
def pendingSubmissions (s : SyncFacade K) : ℕ :=
  s.ready.length + s.table.parties.countP fun party => decide (party ≠ .gone)

def step [DecidableEq K] (locks : LockStripes K) (s : SyncFacade K) :
    SubmissionEvent K → Option (SyncFacade K)
  | .submit producer keys =>
    -- `_schedule_submission`, which otherwise raises and schedules nothing.
    if s.acceptingSubmissions && decide (s.pendingSubmissions < s.maxPendingSubmissions) then
      some { s with
        ready := s.ready ++ [⟨producer, s.accepted, keys⟩]
        accepted := s.accepted + 1 }
    else some s
  | .start =>
    match s.ready with
    | [] => none
    | next :: ready => some { s with
        ready := ready
        table := s.table.arrive (locks.indexes next.keys)
        started := s.started ++ [next] }
  | .resume i => (s.table.resume i).map fun table => { s with table := table }
  | .effect i k =>
    match s.started[i]?, s.table.party i with
    | some call, .taking _ [] =>
      if k ∈ call.keys then some { s with effects := s.effects ++ [(call, k)] } else none
    | _, _ => none
  | .leave i =>
    if s.table.party i = .gone then none else some { s with table := s.table.leave i }
  | .cancelReady j => some { s with ready := s.ready.eraseIdx j }
  | .close => some { s with acceptingSubmissions := false }

/-- The submission comes from the producer and has the key. -/
def Concerns (p : ℕ) (k : K) (call : Submission K) : Prop := call.producer = p ∧ k ∈ call.keys

/-- What the submissions of one producer did under one key, they did in the order they were
submitted. -/
def InOrder (p : ℕ) (k : K) (s : SyncFacade K) : Prop :=
  s.effects.Pairwise fun x y => x.1.producer = p → x.2 = k → y.1.producer = p → y.2 = k →
    x.1.number ≤ y.1.number

/-- When a submission of the producer that has the key starts, every earlier one that has the key and
has not ended holds or queues for a lock the new one needs. -/
def Meets (locks : LockStripes K) (p : ℕ) (k : K) (s : SyncFacade K) : SubmissionEvent K → Prop
  | .start => ∀ next ready, s.ready = next :: ready → Concerns p k next →
      ∀ (i : ℕ) call, s.started[i]? = some call → Concerns p k call →
        s.table.party i = .gone ∨ ∃ l ∈ locks.indexes next.keys, s.table.At i l
  | _ => True

structure Sound (locks : LockStripes K) (p : ℕ) (k : K) (s : SyncFacade K) : Prop where
  table : s.table.Sound
  length : s.started.length = s.table.parties.length
  numbered : ((s.started ++ s.ready).map Submission.number).Pairwise (· < ·)
  counted : ∀ call ∈ s.started ++ s.ready, call.number < s.accepted
  ahead : ∀ (i j : ℕ) a b, i < j → s.started[i]? = some a → s.started[j]? = some b →
    Concerns p k a → Concerns p k b → s.table.party j = .gone ∨ ∃ l, s.table.Ahead i j l
  done : ∀ x ∈ s.effects, x.1.producer = p → x.2 = k → ∃ j, s.started[j]? = some x.1 ∧
    ∀ (i : ℕ) a, i < j → s.started[i]? = some a → Concerns p k a → s.table.party i = .gone
  inOrder : InOrder p k s

section
variable {locks : LockStripes K} {p : ℕ} {k : K} {s t : SyncFacade K}

theorem sound_new (locks : LockStripes K) (p : ℕ) (k : K) (n : ℕ) :
    (new n : SyncFacade K).Sound locks p k :=
  ⟨LockTable.sound_new, rfl, List.Pairwise.nil, nofun, nofun, nofun, List.Pairwise.nil⟩

/-- Earlier submissions have smaller numbers. -/
theorem Sound.number_lt (h : s.Sound locks p k) {i j : ℕ} {a b : Submission K} (hij : i < j)
    (ha : s.started[i]? = some a) (hb : s.started[j]? = some b) : a.number < b.number := by
  have hpairs := h.numbered
  rw [List.map_append, List.pairwise_append] at hpairs
  obtain ⟨hi, rfl⟩ := List.getElem?_eq_some_iff.mp ha
  obtain ⟨hj, rfl⟩ := List.getElem?_eq_some_iff.mp hb
  have hlt := List.pairwise_iff_getElem.mp hpairs.1 i j (by simpa using hi) (by simpa using hj) hij
  simpa using hlt

theorem Sound.lt_length (h : s.Sound locks p k) {i : ℕ} {a : Submission K}
    (ha : s.started[i]? = some a) : i < s.table.parties.length := by
  rw [← h.length]
  exact (List.getElem?_eq_some_iff.mp ha).1

/-- The locks move on under the same submissions. -/
theorem Sound.moves (h : s.Sound locks p k) {table : LockTable} (htable : table.Sound)
    (hlength : table.parties.length = s.table.parties.length)
    (hgone : ∀ i, s.table.party i = .gone → table.party i = .gone)
    (hahead : ∀ i j l, i ≠ j → s.table.Ahead i j l → table.party j = .gone ∨ table.Ahead i j l) :
    ({ s with table := table } : SyncFacade K).Sound locks p k := by
  refine ⟨htable, h.length.trans hlength.symm, h.numbered, h.counted, ?_, ?_, h.inOrder⟩
  · intro i j a b hij ha hb hca hcb
    rcases h.ahead i j a b hij ha hb hca hcb with hj | ⟨l, hl⟩
    · exact .inl (hgone j hj)
    · exact (hahead i j l hij.ne hl).imp_right fun hl => ⟨l, hl⟩
  · intro x hx hp hk
    obtain ⟨j, hj, hearlier⟩ := h.done x hx hp hk
    exact ⟨j, hj, fun i a hij ha hca => hgone i (hearlier i a hij ha hca)⟩

/-- A new submission starts behind the earlier ones. -/
theorem Sound.start (h : s.Sound locks p k) {next : Submission K} {ready : List (Submission K)}
    (hready : s.ready = next :: ready) (hmeets : Meets locks p k s .start) :
    ({ s with
      ready := ready
      table := s.table.arrive (locks.indexes next.keys)
      started := s.started ++ [next] } : SyncFacade K).Sound locks p k := by
  have hasc := locks.indexes_ascending next.keys
  have hothers := (LockTable.arrive_advanced h.table hasc).others
  have hlist : s.started ++ [next] ++ ready = s.started ++ s.ready := by
    rw [hready, List.append_assoc, List.singleton_append]
  have hsplit : ∀ (i : ℕ) a, (s.started ++ [next])[i]? = some a →
      s.started[i]? = some a ∨ i = s.table.parties.length ∧ a = next := by
    intro i a hi
    rw [List.getElem?_append] at hi
    split at hi
    · exact .inl hi
    · rename_i hge
      rw [List.getElem?_singleton] at hi
      split at hi
      · rename_i hzero
        rw [Option.some.injEq] at hi
        exact .inr ⟨by rw [← h.length]; omega, hi.symm⟩
      · cases hi
  refine ⟨h.table.arrive hasc, ?_, ?_, ?_, ?_, ?_, h.inOrder⟩
  · show (s.started ++ [next]).length = _
    rw [List.length_append, h.length, LockTable.arrive_length, List.length_singleton]
  · show ((s.started ++ [next] ++ ready).map Submission.number).Pairwise (· < ·)
    rw [hlist]
    exact h.numbered
  · show ∀ call ∈ s.started ++ [next] ++ ready, call.number < s.accepted
    rw [hlist]
    exact h.counted
  · intro i j a b hij ha hb hca hcb
    rcases hsplit j b hb with hj | ⟨rfl, rfl⟩
    · have hjlt := h.lt_length hj
      rcases hsplit i a ha with hi | ⟨rfl, -⟩
      · rcases h.ahead i j a b hij hi hj hca hcb with hgone | ⟨l, hl⟩
        · exact .inl ((hothers j hjlt.ne).trans hgone)
        · exact .inr ⟨l, hl.arrive h.table hasc (h.lt_length hi)⟩
      · exact absurd hjlt (by omega)
    · rcases hsplit i a ha with hi | ⟨rfl, -⟩
      · have hilt := h.lt_length hi
        rcases hmeets b ready hready hcb i a hi hca with hgone | ⟨l, hl, hat⟩
        · exact .inr ⟨0, .inl ((hothers i hilt.ne).trans hgone)⟩
        · exact .inr ⟨l, h.table.arrive_ahead hasc hilt hat hl⟩
      · exact absurd hij (lt_irrefl _)
  · intro x hx hp hk
    obtain ⟨j, hj, hearlier⟩ := h.done x hx hp hk
    refine ⟨j, ?_, fun i a hij ha hca => ?_⟩
    · show (s.started ++ [next])[j]? = some x.1
      rw [List.getElem?_append_left (List.getElem?_eq_some_iff.mp hj).1]
      exact hj
    · have hjlt := h.lt_length hj
      rcases hsplit i a ha with hi | ⟨rfl, -⟩
      · exact (hothers i (h.lt_length hi).ne).trans (hearlier i a hij hi hca)
      · exact absurd hjlt (by omega)

/-- A submission that has all its locks finds the earlier ones gone. -/
theorem Sound.earlier_gone (h : s.Sound locks p k) {i j : ℕ} {a b : Submission K} (hij : i < j)
    (ha : s.started[i]? = some a) (hb : s.started[j]? = some b) (hca : Concerns p k a)
    (hcb : Concerns p k b) {held : List ℕ} (hinside : s.table.party j = .taking held []) :
    s.table.party i = .gone := by
  rcases h.ahead i j a b hij ha hb hca hcb with hgone | ⟨l, hl⟩
  · rw [hinside] at hgone
    cases hgone
  · exact hl.gone (by rw [hinside]; rfl)

theorem Sound.effect (h : s.Sound locks p k) {i : ℕ} {call : Submission K} {key : K}
    {held : List ℕ} (hcall : s.started[i]? = some call)
    (hinside : s.table.party i = .taking held []) (hkey : key ∈ call.keys) :
    ({ s with effects := s.effects ++ [(call, key)] } : SyncFacade K).Sound locks p k := by
  refine ⟨h.table, h.length, h.numbered, h.counted, h.ahead, ?_, ?_⟩
  · intro x hx hp hk
    rcases List.mem_append.mp hx with hx | hx
    · exact h.done x hx hp hk
    · obtain rfl := List.mem_singleton.mp hx
      refine ⟨i, hcall, fun j a hji ha hca => ?_⟩
      exact h.earlier_gone hji ha hcall hca ⟨hp, hk ▸ hkey⟩ hinside
  · show (s.effects ++ [(call, key)]).Pairwise _
    rw [List.pairwise_append]
    refine ⟨h.inOrder, List.pairwise_singleton _ _, fun x hx y hy hp hk hp' hk' => ?_⟩
    obtain rfl := List.mem_singleton.mp hy
    obtain ⟨j, hj, hearlier⟩ := h.done x hx hp hk
    rcases lt_trichotomy j i with hji | rfl | hij
    · exact (h.number_lt hji hj hcall).le
    · rw [hj, Option.some.injEq] at hcall
      rw [hcall]
    · -- The later submission acted only after this one had ended.
      have hgone := hearlier i call hij hcall ⟨hp', hk' ▸ hkey⟩
      rw [hinside] at hgone
      cases hgone

/-- Every step that meets the condition keeps the invariant. -/
theorem sound_step [DecidableEq K] {e : SubmissionEvent K} (hmeets : Meets locks p k s e)
    (h : s.Sound locks p k) (hs : step locks s e = some t) : t.Sound locks p k := by
  cases e with
  | submit producer keys =>
    simp only [step] at hs
    split at hs
    · cases hs
      refine ⟨h.table, h.length, ?_, ?_, h.ahead, h.done, h.inOrder⟩
      · show ((s.started ++ (s.ready ++ [_])).map Submission.number).Pairwise (· < ·)
        rw [← List.append_assoc, List.map_append, List.pairwise_append]
        refine ⟨h.numbered, List.pairwise_singleton _ _, fun a ha b hb => ?_⟩
        obtain ⟨call, hcall, rfl⟩ := List.mem_map.mp ha
        obtain rfl := List.mem_singleton.mp hb
        exact h.counted call hcall
      · intro call hcall
        rw [← List.append_assoc] at hcall
        rcases List.mem_append.mp hcall with hcall | hcall
        · exact Nat.lt_succ_of_lt (h.counted call hcall)
        · obtain rfl := List.mem_singleton.mp hcall
          exact Nat.lt_succ_self _
    · cases hs
      exact h
  | start =>
    simp only [step] at hs
    split at hs
    · cases hs
    · rename_i next ready hready
      cases hs
      exact h.start hready hmeets
  | resume i =>
    obtain ⟨table, htable, rfl⟩ := Option.map_eq_some_iff.mp hs
    refine h.moves (h.table.resume htable) (LockTable.resume_length htable) (fun j hj => ?_)
      fun j j' l hne hl => .inr (hl.resume h.table hne htable)
    by_cases hji : j = i
    · unfold LockTable.resume at htable
      rw [← hji, hj] at htable
      cases htable
    · rw [(LockTable.resume_advanced h.table htable rfl).others j hji, hj]
  | effect i key =>
    simp only [step] at hs
    split at hs
    · rename_i call held hcall hinside
      split at hs
      · rename_i hkey
        cases hs
        exact h.effect hcall hinside hkey
      · cases hs
    · cases hs
  | leave i =>
    simp only [step] at hs
    split at hs
    · cases hs
    · cases hs
      refine h.moves (h.table.leave i) (LockTable.leave_length _ _) (fun j hj => ?_)
        fun j j' l _ hl => ?_
      · rw [LockTable.leave_party, hj, ite_self]
      · by_cases hj' : j' = i
        · exact .inl (by rw [LockTable.leave_party, if_pos hj'])
        · exact .inr (hl.leave hj')
  | cancelReady j =>
    cases hs
    have hsub : (s.started ++ s.ready.eraseIdx j).Sublist (s.started ++ s.ready) :=
      (List.Sublist.refl _).append (List.eraseIdx_sublist _ _)
    exact ⟨h.table, h.length, h.numbered.sublist (hsub.map _), fun call hcall =>
      h.counted call (hsub.subset hcall), h.ahead, h.done, h.inOrder⟩
  | close =>
    cases hs
    exact ⟨h.table, h.length, h.numbered, h.counted, h.ahead, h.done, h.inOrder⟩

/-- A run in which every submission of the producer that starts with the key meets the earlier ones
at a lock, applies them under this key in the order they were submitted. -/
theorem submissions_in_order [DecidableEq K] {n : ℕ} {es : List (SubmissionEvent K)}
    (hrun : RunOf (step locks) (Meets locks p k) (new n) es s) : InOrder p k s :=
  (hrun.invariant (Sound locks p k) (fun _ _ _ hmeets h hs => sound_step hmeets h hs)
    (sound_new locks p k n)).inOrder

end

end SyncFacade

/-! ## Overtaking -/

open SyncFacade

/-- Two stripes under the identity. -/
def twoStripes : LockStripes ℕ := ⟨fun k => k, 2, Nat.two_pos⟩

/-- The second submission queues for its first lock where the third finds its only one free. -/
def overtaking : List (SubmissionEvent ℕ) :=
  [.submit 0 [0], .submit 0 [0, 1], .submit 0 [1], .start, .start, .start, .effect 2 1, .leave 0,
    .resume 1, .leave 2, .resume 1, .effect 1 1]

/-- A later submission can act before an earlier one of the same producer and key. -/
theorem submission_overtaken : ¬ ∀ (locks : LockStripes ℕ) (n : ℕ) (es : List (SubmissionEvent ℕ))
    (s : SyncFacade ℕ), Run (step locks) (new n) es s → ∀ p k, InOrder p k s := by
  intro h
  have hend : (exec (step twoStripes) (new 8) overtaking).map (fun s =>
      s.effects.map fun x => (x.1.producer, x.1.number, x.2)) = some [(0, 2, 1), (0, 1, 1)] := by
    decide +kernel
  obtain ⟨s, hs, heffects⟩ := Option.map_eq_some_iff.mp hend
  obtain ⟨x, rest, hlist, hx, hrest⟩ := List.map_eq_cons_iff.mp heffects
  obtain ⟨y, rfl, hy⟩ := List.map_eq_singleton_iff.mp hrest
  rw [Prod.mk.injEq, Prod.mk.injEq] at hx hy
  have horder := h twoStripes 8 overtaking s (exec_run hs) 0 1
  rw [InOrder, hlist, List.pairwise_cons] at horder
  have hle := horder.1 y List.mem_cons_self hx.1 hx.2.2 hy.1 hy.2.2
  rw [hx.2.1, hy.2.1] at hle
  exact absurd hle (by decide)

/-- The first submission holds both locks when the second comes for one of them. -/
theorem submissions_in_order_queued : ∃ s : SyncFacade ℕ,
    RunOf (step twoStripes) (Meets twoStripes 0 1) (new 8)
      [.submit 0 [0, 1], .submit 0 [1], .start, .start, .effect 0 1, .leave 0, .resume 1,
        .effect 1 1] s ∧ s.effects.length = 2 ∧ InOrder 0 1 s := by
  have hrun : ∃ s : SyncFacade ℕ, RunOf (step twoStripes) (Meets twoStripes 0 1) (new 8)
      [.submit 0 [0, 1], .submit 0 [1], .start, .start, .effect 0 1, .leave 0, .resume 1,
        .effect 1 1] s ∧ s.effects.length = 2 := by
    refine ⟨_, .cons trivial rfl (.cons trivial rfl (.cons ?_ rfl (.cons ?_ rfl (.cons trivial rfl
      (.cons trivial rfl (.cons trivial rfl (.cons trivial rfl (.nil _)))))))), rfl⟩
    · intro _ _ _ _ i call hcall
      cases hcall
    · intro next ready hready _ i call hcall _
      cases hready
      have hi : i = 0 := by
        have hlt := (List.getElem?_eq_some_iff.mp hcall).1
        exact Nat.lt_one_iff.mp hlt
      subst hi
      exact .inr ⟨1, by decide, .inl (by decide)⟩
  obtain ⟨s, hs, hlength⟩ := hrun
  exact ⟨s, hs, hlength, submissions_in_order hs⟩

end Coalestra
