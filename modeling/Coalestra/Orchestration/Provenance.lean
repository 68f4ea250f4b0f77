import Coalestra.Orchestration.Dataflow

/-! # Which source call produced a value

`Traced` runs the machine and writes down, for every version handed out, the unit of work whose
source call produced the value. The record changes nothing: a run of `tracedStep` is a run of
`step`. -/

namespace Coalestra
set_option autoImplicit false
set_option maxHeartbeats 250000

section
variable {K V : Type} [DecidableEq K]

/-- A builder with its record. `gathered` lists the units of work whose attempts a coroutine goes
through, `producers` gives the unit of work behind a version. -/
structure Traced (K V : Type) [DecidableEq K] extends State K V where
  gathered : Dict ℕ (List ℕ)
  producers : Dict ℕ ℕ

/-- The source of unit of work `w` has been called. -/
def State.callBegan (s : State K V) (w : ℕ) : Bool :=
  match s.frame? w with
  | some ⟨_, .work _ _ (.calling _)⟩ | some ⟨_, .work _ _ (.done _)⟩ => true
  | _ => false

/-- Unit of work `w` is about `key`. -/
def State.worksOn (s : State K V) (w : ℕ) (key : K) : Bool :=
  match (s.frame? w).map fun f => f.body.call with
  | some (Call.work _ keys) => decide (key ∈ keys)
  | _ => false

/-- The attempt that one of these units of work, all finished, made for `key`. -/
def State.attempter (s : State K V) (units : List ℕ) (key : K) : Option ℕ :=
  units.find? fun w => (Dict.find ((s.workOutcome w).getD []) key).isSome

/-- The units of work that frame `i` has waited for when it gathers their attempts. -/
def State.gathering (s : State K V) (i : ℕ) : Option (List ℕ) :=
  match s.frame? i with
  | some ⟨_, .resolveOwned _ _ (.attempting _ _ _ [] children)⟩ => some children
  | _ => none

namespace Traced

/-- The unit of work behind the value that frame `i` makes of an attempt when it moves. -/
def producing (b : Builder K V) (T : Traced K V) (i : ℕ) : Option ℕ :=
  match T.frame? i with
  | some ⟨_, .resolveOwned _ _ (.harvesting source _ attempts (key :: _) _)⟩ =>
    match (Dict.find attempts key).map (b.harvest T.now T.revisions.length source key) with
    | some (.fresh _ _) | some (.stale _ _) => T.attempter ((T.gathered.get? i).getD []) key
    | _ => none
  | _ => none

/-- The units of work that frame `i` waits for or goes through. -/
def units (T : Traced K V) (i : ℕ) : List ℕ :=
  match T.frame? i with
  | some ⟨_, .resolveOwned _ _ (.attempting _ _ _ _ children)⟩ => children
  | some ⟨_, .resolveOwned _ _ (.harvesting _ _ _ _ _)⟩ => (T.gathered.get? i).getD []
  | _ => []

def initial (now : ℚ) (cache : AsyncMemoryCache K V) (revisions : List (Dict K ℕ)) : Traced K V :=
  ⟨.initial now cache revisions, .empty, .empty⟩

end Traced

def Builder.tracedStep (b : Builder K V) (T : Traced K V) (l : Label K V) : Option (Traced K V) :=
  (b.step T.toState l).map fun t => match l with
    | .run i _ => ⟨t, (T.gathering i).elim T.gathered (T.gathered.set i),
        (T.producing b i).elim T.producers (T.producers.set T.revisions.length)⟩
    | _ => ⟨t, T.gathered, T.producers⟩

variable {b : Builder K V} {T U : Traced K V} {l : Label K V}

/-! ## The record follows the machine -/

theorem tracedStep_step (h : b.tracedStep T l = some U) : b.step T.toState l = some U.toState := by
  obtain ⟨t, ht, hU⟩ := Option.map_eq_some_iff.mp h
  cases l <;> (subst hU; exact ht)

theorem tracedStep_stepped (h : b.tracedStep T l = some U) : Stepped b T.toState l U.toState :=
  step_cases (tracedStep_step h)

/-- A run with the record is a run of the machine. -/
theorem RunOf.untraced {ok : Traced K V → Label K V → Prop} {ls : List (Label K V)}
    (h : RunOf b.tracedStep ok T ls U) : Run b.step T.toState ls U.toState := by
  induction h with
  | nil T => exact .nil _
  | cons _ hs _ ih => exact .cons trivial (tracedStep_step hs) ih

theorem tracedStep_gathered (h : b.tracedStep T l = some U) {i : ℕ} (hi : ∀ e, l ≠ .run i e) :
    U.gathered.get? i = T.gathered.get? i := by
  obtain ⟨t, ht, rfl⟩ := Option.map_eq_some_iff.mp h
  cases l with
  | run j e =>
    have hij : i ≠ j := fun hij => hi e (by rw [hij])
    dsimp only
    cases T.gathering j with
    | none => rfl
    | some children => exact Dict.get?_set_ne _ _ hij
  | _ => rfl

theorem tracedStep_run {i : ℕ} {e : Event K V} (h : b.tracedStep T (.run i e) = some U) :
    U.gathered = (T.gathering i).elim T.gathered (T.gathered.set i) ∧
      U.producers = (T.producing b i).elim T.producers (T.producers.set T.revisions.length) := by
  obtain ⟨t, ht, rfl⟩ := Option.map_eq_some_iff.mp h
  exact ⟨rfl, rfl⟩

theorem tracedStep_producers (h : b.tracedStep T l = some U) : U.producers = T.producers ∨
    ∃ w, U.producers = T.producers.set T.revisions.length w := by
  obtain ⟨t, ht, rfl⟩ := Option.map_eq_some_iff.mp h
  cases l with
  | run i e =>
    dsimp only
    cases T.producing b i with
    | none => exact .inl rfl
    | some w => exact .inr ⟨w, rfl⟩
  | _ => exact .inl rfl

/-! ## Versions and attempts -/

/-- A move hands out a version exactly when it makes a value of an attempt. -/
theorem Move.revisions_length {s : State K V} {c : Scope K} {body : Body K V} {e : Event K V}
    {m : Step K V} (hm : Move b s c body e m) :
    s.revisions.length ≤ m.shared.revisions.length := by
  have hschedule : ∀ key wanted, (s.schedule key wanted).1.revisions = s.revisions := by
    intro key wanted
    unfold State.schedule
    split <;> rfl
  have hissue : ∀ versions, s.revisions.length ≤ (s.toShared.issue versions).revisions.length := by
    intro versions
    simp [Shared.issue]
  cases hm with
  | many hm =>
    cases hm with
    | hit => rw [hschedule]
    | reserve => rw [reserve_shared]
    | _ => exact le_rfl
  | owned hm =>
    cases hm with
    | keep => exact hissue _
    | accept => exact hissue _
    | _ => exact le_rfl
  | work hm => cases hm <;> exact le_rfl
  | produce hm => cases hm <;> exact le_rfl
  | refresh hm =>
    cases hm with
    | reserve => rw [reserve_shared]
    | _ => exact le_rfl

theorem Stepped.revisions_length {s t : State K V} (h : Stepped b s l t) :
    s.revisions.length ≤ t.revisions.length := by
  cases h with
  | run _ hm => exact hm.revisions_length
  | _ => exact le_rfl

/-- Where a version is recorded, one is handed out. -/
theorem producing_issues {i : ℕ} {f : Frame K V} {e : Event K V} {m : Step K V} {w : ℕ}
    (hf : T.frame? i = some f) (hm : Move b T.toState f.scope f.body e m)
    (hw : T.producing b i = some w) : T.revisions.length < m.shared.revisions.length := by
  have hissue : ∀ versions,
      T.revisions.length < (T.toShared.issue versions).revisions.length := by
    intro versions
    simp [Shared.issue]
  unfold Traced.producing at hw
  rw [hf] at hw
  obtain ⟨c, body⟩ := f
  cases hm with
  | owned hm =>
    cases hm with
    | harvestMissing ha => simp [ha] at hw
    | refuse ha hh => simp [ha, hh] at hw
    | keep => exact hissue _
    | accept => exact hissue _
    | interrupt hp =>
      split at hw
      · rename_i heq
        cases heq
        cases hp
      · cases hw
    | _ => cases hw
  | _ => cases hw

/-- A finished unit of work stays as it is. -/
theorem Stepped.workOutcome {s t : State K V} (h : Stepped b s l t) {w : ℕ}
    {attempts : List (K × SourceAttempt K V)} (hw : s.workOutcome w = some attempts) :
    t.workOutcome w = some attempts := by
  obtain ⟨c, source, keys, hf⟩ := workOutcome_some hw
  have hkeep : t.frame? w = some ⟨c, .work source keys (.done attempts)⟩ := by
    cases h with
    | @run j e f m hj hm =>
      by_cases hjw : w = j
      · subst hjw
        rw [hf, Option.some.injEq] at hj
        subst hj
        cases hm with
        | work hm => cases hm
      · exact frame?_apply_other m hj hf hjw
    | call => exact frame?_append hf
    | _ => exact hf
  unfold State.workOutcome
  rw [hkeep]

/-! ## The record is complete -/

/-- What every traced state satisfies: no version is recorded before it is handed out, units of work
attempt their own keys only, and the attempts that a coroutine goes through are those of the units
of work it gathered. -/
structure Recorded (T : Traced K V) : Prop where
  known : ∀ n w, T.producers.get? n = some w → n < T.revisions.length
  attempts : ∀ w c source keys attempts,
    T.frame? w = some ⟨c, .work source keys (.done attempts)⟩ → ∀ e ∈ attempts, e.1 ∈ keys
  gathered : ∀ i c keys lo source sources attempts rest fresh,
    T.frame? i = some ⟨c, .resolveOwned keys lo
      (.harvesting source sources attempts rest fresh)⟩ →
    (∀ w ∈ T.units i, (T.workOutcome w).isSome) ∧
      attempts = (T.units i).flatMap fun w => (T.workOutcome w).getD []

theorem recorded_initial (now : ℚ) (cache : AsyncMemoryCache K V) (revisions : List (Dict K ℕ)) :
    Recorded (.initial now cache revisions) := by
  have hframe : ∀ i, (Traced.initial now cache revisions : Traced K V).frame? i = none := by
    intro i
    simp [Traced.initial, State.initial, State.frame?]
  exact ⟨fun n w hn => (by cases hn), fun w c source keys attempts hf => absurd (hframe w) (by simp [hf]),
    fun i c keys lo source sources attempts rest fresh hf => absurd (hframe i) (by simp [hf])⟩

theorem WorkMove.attempts {s : State K V} {c : Scope K} {source : Source K} {keys : List K}
    {p : WorkPhase K V} {e : Event K V} {m : Step K V} (hm : WorkMove b s c source keys p e m)
    {source' : Source K} {keys' : List K} {attempts : List (K × SourceAttempt K V)}
    (hbody : m.body = .work source' keys' (.done attempts)) :
    ∀ x ∈ attempts, x.1 ∈ keys' := by
  have hfail : ∀ err : Error K, ∀ x ∈ (failAll keys err : List (K × SourceAttempt K V)),
      x.1 ∈ keys := by
    intro err x hx
    obtain ⟨k, hk, rfl⟩ := List.mem_map.mp hx
    exact hk
  cases hm with
  | refuse => cases hbody; exact hfail _
  | cycle => cases hbody; exact hfail _
  | depend => cases hbody
  | resolved => cases hbody
  | unresolved =>
    cases hbody
    intro x hx
    obtain ⟨k, hk, rfl⟩ := List.mem_map.mp hx
    exact hk
  | childRaised => cases hbody; exact hfail _
  | isolated => cases hbody
  | answerBatch =>
    cases hbody
    intro x hx
    unfold Builder.batchAttempts at hx
    split at hx
    · obtain ⟨k, hk, rfl⟩ := List.mem_map.mp hx
      exact hk
    · obtain ⟨k, hk, rfl⟩ := List.mem_map.mp hx
      exact hk
  | answer =>
    cases hbody
    intro x hx
    obtain ⟨k, hk, hx⟩ := List.mem_filterMap.mp hx
    obtain ⟨payload, _, rfl⟩ := Option.map_eq_some_iff.mp hx
    exact hk
  | interrupt => cases hbody; exact hfail _
  | fail => cases hbody; exact hfail _

/-- A frame that stays in place keeps its units of work. -/
theorem units_of_frame {i : ℕ} {f : Frame K V} (hT : T.frame? i = some f)
    (hU : U.frame? i = some f) (hg : U.gathered.get? i = T.gathered.get? i) :
    U.units i = T.units i := by
  unfold Traced.units
  rw [hT, hU, hg]

/-- A move of frame `i` keeps its units of work, apart from a started one, as long as it goes
through them. -/
theorem units_of_move {i : ℕ} {e : Event K V} {f : Frame K V} {m : Step K V}
    (hf : T.frame? i = some f) (hm : Move b T.toState f.scope f.body e m)
    (hU : U.toState = T.toState.apply i f m)
    (hg : U.gathered = (T.gathering i).elim T.gathered (T.gathered.set i)) {w : ℕ}
    (hw : w ∈ U.units i) : w ∈ T.units i ∨ w = T.frames.length := by
  have hframe : U.frame? i = some { f with body := m.body } := by
    rw [hU]
    exact frame?_apply_self m hf
  have hold : T.gathering i = none → U.gathered.get? i = T.gathered.get? i := by
    intro hnone
    rw [hg, hnone]
    rfl
  unfold Traced.units at hw ⊢
  rw [hframe] at hw
  rw [hf]
  obtain ⟨c, body⟩ := f
  unfold State.gathering at hg hold
  rw [hf] at hg hold
  cases hm with
  | many hm => cases hm <;> cases hw
  | owned hm =>
    cases hm with
    | attempt => cases hw
    | dispatch =>
      rcases List.mem_append.mp hw with hw | hw
      · exact .inl hw
      · exact .inr (List.mem_singleton.mp hw)
    | gather =>
      left
      rw [hg] at hw
      dsimp only [Option.elim_some] at hw
      rw [Dict.get?_set_self] at hw
      exact hw
    | refuse => exact .inl (by rwa [← hold rfl])
    | keep => exact .inl (by rwa [← hold rfl])
    | accept => exact .inl (by rwa [← hold rfl])
    | _ => cases hw
  | work hm => cases hm <;> cases hw
  | produce hm => cases hm <;> cases hw
  | refresh hm => cases hm <;> cases hw

/-- Gathered attempts stay those of the finished units of work. -/
theorem gathered_persist {s t : State K V} (h : Stepped b s l t) {units : List ℕ}
    {attempts : List (K × SourceAttempt K V)} (hsome : ∀ w ∈ units, (s.workOutcome w).isSome)
    (ha : attempts = units.flatMap fun w => (s.workOutcome w).getD []) :
    (∀ w ∈ units, (t.workOutcome w).isSome) ∧
      attempts = units.flatMap fun w => (t.workOutcome w).getD [] := by
  have hsame : ∀ w ∈ units, t.workOutcome w = s.workOutcome w := by
    intro w hw
    obtain ⟨outcome, ho⟩ := Option.isSome_iff_exists.mp (hsome w hw)
    rw [ho, h.workOutcome ho]
  refine ⟨fun w hw => by rw [hsame w hw]; exact hsome w hw, ?_⟩
  rw [ha]
  simp only [List.flatMap]
  congr 1
  exact List.map_congr_left fun w hw => by rw [hsame w hw]

theorem Recorded.move (hr : Recorded T) {i : ℕ} {e : Event K V} {f : Frame K V} {m : Step K V}
    (hf : T.frame? i = some f) (hm : Move b T.toState f.scope f.body e m)
    (hU : U.toState = T.toState.apply i f m)
    (hg : U.gathered = (T.gathering i).elim T.gathered (T.gathered.set i)) {keys rest : List K}
    {lo : OwnedLocals K V} {source : Source K} {sources : List (Source K)}
    {attempts : List (K × SourceAttempt K V)} {fresh : List (SnapshotValue K V)}
    (hbody : m.body = .resolveOwned keys lo (.harvesting source sources attempts rest fresh)) :
    U.units i = T.units i ∧ (∀ w ∈ T.units i, (T.workOutcome w).isSome) ∧
      attempts = (T.units i).flatMap fun w => (T.workOutcome w).getD [] := by
  have hframe : U.frame? i = some { f with body := m.body } := by
    rw [hU]
    exact frame?_apply_self m hf
  have hunits : U.units i = (U.gathered.get? i).getD [] := by
    unfold Traced.units
    rw [hframe, hbody]
  have hgathered := hr.gathered i
  obtain ⟨c, body⟩ := f
  unfold State.gathering at hg
  unfold Traced.units at hgathered ⊢
  rw [hf] at hg hgathered
  rw [hframe, hf, hbody]
  cases hm with
  | many hm => cases hm <;> cases hbody
  | owned hm =>
    cases hm with
    | gather hc =>
      cases hbody
      rw [hg]
      dsimp only [Option.elim_some]
      rw [Dict.get?_set_self]
      exact ⟨rfl, hc, rfl⟩
    | refuse =>
      cases hbody
      rw [hg]
      exact ⟨rfl, hgathered _ _ _ _ _ _ _ _ rfl⟩
    | keep =>
      cases hbody
      rw [hg]
      exact ⟨rfl, hgathered _ _ _ _ _ _ _ _ rfl⟩
    | accept =>
      cases hbody
      rw [hg]
      exact ⟨rfl, hgathered _ _ _ _ _ _ _ _ rfl⟩
    | _ => cases hbody
  | work hm => cases hm <;> cases hbody
  | produce hm => cases hm <;> cases hbody
  | refresh hm => cases hm <;> cases hbody

theorem Recorded.step (hr : Recorded T) (h : b.tracedStep T l = some U) : Recorded U := by
  have hstep := tracedStep_stepped h
  have hlen := hstep.revisions_length
  refine ⟨?_, ?_, ?_⟩
  · intro n w hn
    have hold : U.producers = T.producers → n < U.revisions.length := by
      intro heq
      rw [heq] at hn
      exact lt_of_lt_of_le (hr.known n w hn) hlen
    cases l with
    | run i e =>
      obtain ⟨f, m, hf, hm, hU⟩ := step_run.mp (tracedStep_step h)
      have hproducers := (tracedStep_run h).2
      cases hw : T.producing b i with
      | none =>
        rw [hw] at hproducers
        exact hold hproducers
      | some w' =>
        rw [hw, Option.elim_some] at hproducers
        have hissue := producing_issues hf (move_cases hm) hw
        rw [hproducers] at hn
        have hrev : U.revisions = m.shared.revisions := congrArg (fun s => s.revisions) hU
        rw [hrev] at hlen ⊢
        rcases Dict.get?_set_cases hn with ⟨rfl, _⟩ | hn
        · exact hissue
        · exact lt_of_lt_of_le (hr.known n w hn) hlen
    | _ =>
      rcases tracedStep_producers h with heq | ⟨w', heq⟩
      · exact hold heq
      · obtain ⟨t, ht, rfl⟩ := Option.map_eq_some_iff.mp h
        exact hold rfl
  · intro w c source keys attempts hw
    cases hstep.came hw with
    | @moved e g m hg hm _ hf =>
      rw [Frame.mk.injEq] at hf
      have hbody := hf.2.symm
      obtain ⟨c', body⟩ := g
      cases hm with
      | many hm => cases hm <;> cases hbody
      | owned hm => cases hm <;> cases hbody
      | work hm => exact hm.attempts hbody
      | produce hm => cases hm <;> cases hbody
      | refresh hm => cases hm <;> cases hbody
    | started _ hm _ _ hf =>
      have hstart : _ ∨ _ := hm.spawn_atStart hf
      rcases hstart with h | h <;> cases h
    | called _ hf => cases hf
    | stayed _ hf => exact hr.attempts w c source keys attempts hf
  · intro i c keys lo source sources attempts rest fresh hi
    cases hstep.came hi with
    | moved hg hm hU hf =>
      rw [Frame.mk.injEq] at hf
      obtain ⟨hunits, hsome, ha⟩ := hr.move hg hm hU (tracedStep_run h).1 hf.2.symm
      rw [hunits]
      exact gathered_persist hstep hsome ha
    | started _ hm _ _ hf =>
      have hstart : _ ∧ _ := hm.spawn_atStart hf
      cases hstart.2
    | called _ hf => cases hf
    | stayed hl hf =>
      obtain ⟨hsome, ha⟩ := hr.gathered _ _ _ _ _ _ _ _ _ hf
      rw [units_of_frame hf hi (tracedStep_gathered h hl)]
      exact gathered_persist hstep hsome ha

/-- What a run keeps. -/
theorem RunOf.recorded {ok : Traced K V → Label K V → Prop} {ls : List (Label K V)}
    (h : RunOf b.tracedStep ok T ls U) (hr : Recorded T) : Recorded U :=
  h.invariant Recorded (fun _ _ _ _ hs hstep => hs.step hstep) hr

/-- The unit of work behind an attempt that a coroutine goes through. -/
theorem Recorded.attempter (hr : Recorded T) {i : ℕ} {c : Scope K} {keys rest : List K}
    {lo : OwnedLocals K V} {source : Source K} {sources : List (Source K)}
    {attempts : List (K × SourceAttempt K V)} {fresh : List (SnapshotValue K V)} {key : K}
    {a : SourceAttempt K V}
    (hf : T.frame? i = some ⟨c, .resolveOwned keys lo
      (.harvesting source sources attempts rest fresh)⟩)
    (ha : Dict.find attempts key = some a) :
    ∃ w ∈ T.units i, T.attempter (T.units i) key = some w ∧ T.worksOn w key = true := by
  obtain ⟨hsome, hattempts⟩ := hr.gathered _ _ _ _ _ _ _ _ _ hf
  have hmem := Dict.mem_of_find ha
  rw [hattempts] at hmem
  obtain ⟨u, hu, hmem⟩ := List.mem_flatMap.mp hmem
  have hfound : ∃ w, T.attempter (T.units i) key = some w := by
    rw [← Option.isSome_iff_exists, State.attempter, List.find?_isSome]
    refine ⟨u, hu, ?_⟩
    rw [Option.isSome_iff_ne_none, ne_eq, Dict.find_eq_none, not_not]
    exact List.mem_map_of_mem (f := Prod.fst) hmem
  obtain ⟨w, hw⟩ := hfound
  have hwmem := List.mem_of_find?_eq_some hw
  obtain ⟨outcome, ho⟩ := Option.isSome_iff_exists.mp (hsome w hwmem)
  obtain ⟨c', source', keys', hframe⟩ := workOutcome_some ho
  have hkey := List.find?_some hw
  rw [ho, Option.getD_some] at hkey
  obtain ⟨x, hx⟩ := Option.isSome_iff_exists.mp hkey
  have hown : key ∈ keys' := hr.attempts w c' source' keys' outcome hframe _ (Dict.mem_of_find hx)
  refine ⟨w, hwmem, hw, ?_⟩
  unfold State.worksOn
  rw [hframe, Option.map_some]
  exact decide_eq_true hown

/-! ## Old versions -/

/-- A source that has been called has been called. -/
theorem Stepped.callBegan {s t : State K V} (h : Stepped b s l t) {w : ℕ}
    (hw : s.callBegan w = true) : t.callBegan w = true := by
  unfold State.callBegan at hw
  split at hw
  · rename_i c source keys versions hf
    obtain ⟨g, hg, _⟩ := h.called ⟨_, hf, rfl, rfl⟩
    unfold State.callBegan
    rw [hg]
    cases h.came hg with
    | moved hg' hm _ hbody =>
      rw [hf, Option.some.injEq] at hg'
      subst hg' hbody
      cases hm with
      | work hm => cases hm <;> rfl
    | started _ _ _ hi => exact absurd (lt_of_frame? hf) (by omega)
    | called hi => exact absurd (lt_of_frame? hf) (by omega)
    | stayed _ hg' =>
      rw [hf, Option.some.injEq] at hg'
      subst hg'
      rfl
  · rename_i c source keys attempts hf
    have ho : s.workOutcome w = some attempts := by
      unfold State.workOutcome
      rw [hf]
    obtain ⟨_, _, _, hdone⟩ := workOutcome_some (h.workOutcome ho)
    unfold State.callBegan
    rw [hdone]
  · cases hw

/-- Recorded units of work have called their source. -/
def Began (T : Traced K V) : Prop := ∀ n w, T.producers.get? n = some w → T.callBegan w = true

theorem producing_began {i w : ℕ} (h : T.producing b i = some w) : T.callBegan w = true := by
  unfold Traced.producing at h
  have hattempter : ∀ units key, T.attempter units key = some w → T.callBegan w = true := by
    intro units key hw
    have hfound := List.find?_some hw
    cases ho : T.workOutcome w with
    | none =>
      rw [ho] at hfound
      cases hfound
    | some attempts =>
      obtain ⟨c, source, keys, hf⟩ := workOutcome_some ho
      unfold State.callBegan
      rw [hf]
  split at h
  · split at h
    · exact hattempter _ _ h
    · exact hattempter _ _ h
    · cases h
  · cases h

theorem Began.step (hT : Began T) (h : b.tracedStep T l = some U) : Began U := by
  have hstep := tracedStep_stepped h
  intro n w hw
  cases l with
  | run i e =>
    have hproducers := (tracedStep_run h).2
    cases hproducing : T.producing b i with
    | none =>
      rw [hproducing] at hproducers
      rw [hproducers] at hw
      exact hstep.callBegan (hT n w hw)
    | some w' =>
      rw [hproducing, Option.elim_some] at hproducers
      rw [hproducers] at hw
      rcases Dict.get?_set_cases hw with ⟨_, rfl⟩ | hw
      · exact hstep.callBegan (producing_began hproducing)
      · exact hstep.callBegan (hT n w hw)
  | _ =>
    obtain ⟨t, _, rfl⟩ := Option.map_eq_some_iff.mp h
    exact hstep.callBegan (hT n w hw)

/-- Nothing is recorded for a version after it was handed out. -/
theorem tracedStep_old (h : b.tracedStep T l = some U) {n : ℕ} (hn : n < T.revisions.length) :
    U.producers.get? n = T.producers.get? n := by
  rcases tracedStep_producers h with heq | ⟨w, heq⟩
  · rw [heq]
  · rw [heq, Dict.get?_set_ne _ _ (Nat.ne_of_lt hn)]

end
end Coalestra
