import Coalestra.Orchestration.Provenance
import Coalestra.Orchestration.Deadlines

/-! # Values of later source calls

From a point `T₀` on, a session may depend on values of one key whose source calls had not begun at
`T₀`. It does as long as the cache, the flights it joins and the memos behind these flights hand it
nothing older (`TakesSince`), and this is kept step by step (`Watching.step`). -/

namespace Coalestra
set_option autoImplicit false
set_option maxHeartbeats 250000

section
variable {K V : Type} [DecidableEq K]

/-! ## Later source calls -/

namespace Traced

/-- The version comes from a source call that had not begun at `T₀`. -/
def Since (T T₀ : Traced K V) (version : ℕ) : Prop :=
  ∃ w, T.producers.get? version = some w ∧ T₀.callBegan w = false

/-- Coroutine `i` holds no value of `key` from before, and goes through no attempt for `key` whose
source call had begun. -/
structure Untouched (T T₀ : Traced K V) (key : K) (i : ℕ) : Prop where
  values : ∀ f v, T.frame? i = some f → f.body.Carries key v → T.Since T₀ v.version
  units : ∀ w ∈ T.units i, T.worksOn w key = true → T₀.callBegan w = false

/-- The source loop of flight `q`. -/
def Runs (T : Traced K V) (q child : ℕ) : Prop :=
  ∃ c owned settled, T.frame? q = some ⟨c, .produce owned settled (.running child)⟩

def FlightUntouched (T T₀ : Traced K V) (key : K) (q : ℕ) : Prop :=
  T.Untouched T₀ key q ∧ ∀ child, T.Runs q child → T.Untouched T₀ key child

/-- A coroutine of runtime `r` waits for the future of `key` that flight `q` settles. -/
def AwaitedBy (T : Traced K V) (r : ℕ) (key : K) (q : ℕ) : Prop :=
  ∃ i c keys l futures, T.frame? i = some ⟨c, .resolveMany keys l (.joining futures)⟩ ∧
    c.runtime = r ∧ (key, q) ∈ futures

/-- Every value of `key` that a resolution of runtime `r` has comes from a later source call. -/
def DeliversSince (T T₀ : Traced K V) (key : K) (r : ℕ) : Prop :=
  ∀ i c keys l p v, T.frame? i = some ⟨c, .resolveMany keys l p⟩ → c.runtime = r →
    l.values.get? key = some v → T.Since T₀ v.version

end Traced

/-- What keeps values from before `T₀` away from the resolutions of `key` in runtime `r` that do not
read the cache: they join untouched flights only, and the source loops they wait for neither find
one in the memo of their session nor see one supersede what they write. -/
structure JoinsSince (T₀ : Traced K V) (key : K) (r : ℕ) (T : Traced K V) (l : Label K V) : Prop
    where
  joins : ∀ i f q, l = .run i .go → T.frame? i = some f → f.scope.runtime = r →
    key ∈ f.body.reserving → T.tasks.get? key = some q → T.FlightUntouched T₀ key q
  visits : ∀ i c keys lo sources q v, l = .run i .go →
    T.frame? i = some ⟨c, .resolveOwned keys lo (.visiting sources)⟩ → T.AwaitedBy r key q →
    T.Runs q i → (T.runtime c.runtime).pinned key = some v → T.Since T₀ v.version
  winners : ∀ i c keys lo sources fresh v w, l = .run i .go →
    T.frame? i = some ⟨c, .resolveOwned keys lo (.writing sources fresh)⟩ →
    (c.runtime = r ∨ ∃ q, T.AwaitedBy r key q ∧ T.Runs q i) → v ∈ fresh → v.key = key →
    T.cache.get? key = some w → v.authorityRank < w.authorityRank → T.Since T₀ w.version

/-- Nor do they read one from the cache. -/
structure TakesSince (T₀ : Traced K V) (key : K) (r : ℕ) (T : Traced K V) (l : Label K V) : Prop
    extends JoinsSince T₀ key r T l where
  reads : ∀ i c keys lo cacheKeys now v, l = .run i .go →
    T.frame? i = some ⟨c, .resolveMany keys lo (.reading cacheKeys now)⟩ → c.runtime = r →
    key ∈ cacheKeys → T.cache.get? key = some v → T.Since T₀ v.version

/-! ## One move -/

variable {b : Builder K V} {T T₀ U : Traced K V} {l : Label K V} {key : K} {r : ℕ}

/-- A recorded version keeps its unit of work. -/
theorem Traced.Since.step (hr : Recorded T) (h : b.tracedStep T l = some U) {n : ℕ}
    (hn : T.Since T₀ n) : U.Since T₀ n := by
  obtain ⟨w, hw, hbegan⟩ := hn
  refine ⟨w, ?_, hbegan⟩
  rcases tracedStep_producers h with heq | ⟨w', heq⟩
  · rw [heq]
    exact hw
  · rw [heq, Dict.get?_set_ne _ _ (Nat.ne_of_lt (hr.known n w hw))]
    exact hw

/-- A value of a later source call has a version that `T₀` had not handed out. -/
theorem Traced.Since.issued (hbegan : Began T₀) {n : ℕ}
    (hold : n < T₀.revisions.length → T.producers.get? n = T₀.producers.get? n)
    (hn : T.Since T₀ n) : T₀.revisions.length ≤ n := by
  obtain ⟨w, hw, hlate⟩ := hn
  by_contra hlt
  rw [hold (not_le.mp hlt)] at hw
  rw [hbegan n w hw] at hlate
  cases hlate

/-- Units of work that start after `T₀` call their sources after `T₀`. -/
theorem callBegan_later {w : ℕ} (hw : T₀.frames.length ≤ w) : T₀.callBegan w = false := by
  have hnone : T₀.frame? w = none := List.getElem?_eq_none hw
  unfold State.callBegan
  rw [hnone]

/-- The keys of a unit of work never change. -/
theorem worksOn_step {s t : State K V} (h : Stepped b s l t) {w : ℕ} (hlt : w < s.frames.length) :
    t.worksOn w key = s.worksOn w key := by
  have hf : s.frame? w = some s.frames[w] := List.getElem?_eq_getElem hlt
  obtain ⟨g, hg, _, hcall⟩ := h.called (i := w) ⟨_, hf, rfl, rfl⟩
  unfold State.worksOn
  rw [hf, hg, Option.map_some, Option.map_some, hcall]

/-- What an untouched frame needs to stay so: old units of work keep their keys, new ones are
late. -/
theorem units_late (h : b.tracedStep T l = some U) (hlater : T₀.frames.length ≤ T.frames.length)
    {i : ℕ} (hi : T.Untouched T₀ key i) {w : ℕ} (hw : w ∈ T.units i ∨ w = T.frames.length)
    (hkey : U.worksOn w key = true) : T₀.callBegan w = false := by
  rcases Nat.lt_or_ge w T.frames.length with hlt | hge
  · rcases hw with hw | hw
    · rw [worksOn_step (tracedStep_stepped h) hlt] at hkey
      exact hi.units w hw hkey
    · omega
  · exact callBegan_later (le_trans hlater hge)

/-- A frame that stands still stays untouched. -/
theorem Traced.Untouched.stay (hr : Recorded T) (h : b.tracedStep T l = some U)
    (hlater : T₀.frames.length ≤ T.frames.length) {i : ℕ} {f : Frame K V}
    (hT : T.frame? i = some f) (hU : U.frame? i = some f) (hl : ∀ e, l ≠ .run i e)
    (hi : T.Untouched T₀ key i) : U.Untouched T₀ key i := by
  refine ⟨?_, ?_⟩
  · intro g v hg hv
    rw [hU, Option.some.injEq] at hg
    subst hg
    exact (hi.values f v hT hv).step hr h
  · intro w hw hkey
    rw [units_of_frame hT hU (tracedStep_gathered h hl)] at hw
    exact units_late h hlater hi (.inl hw) hkey

/-- An await that raises takes in nothing. -/
theorem Move.carries_raised {s : State K V} {c : Scope K} {body : Body K V} {fault : Fault}
    {m : Step K V} {v : SnapshotValue K V} (hm : Move b s c body (.raise fault) m)
    (hv : m.body.Carries key v) : body.Carries key v := by
  cases hm with
  | many hm =>
    cases hm with
    | interrupt => exact hv.elim .inl fun h => h.elim
  | owned hm =>
    cases hm with
    | interrupt => exact hv.elim .inl fun h => h.elim
  | work hm => cases hm <;> exact hv.elim
  | produce hm => cases hm
  | refresh hm => cases hm

/-- A frame that moves stays untouched when what it takes in comes from later source calls. -/
theorem Traced.Untouched.move (hr : Recorded T) {i : ℕ} {e : Event K V}
    (h : b.tracedStep T (.run i e) = some U) (hlater : T₀.frames.length ≤ T.frames.length)
    {f : Frame K V} {m : Step K V} (hf : T.frame? i = some f)
    (hm : Move b T.toState f.scope f.body e m) (hU : U.toState = T.toState.apply i f m)
    (hin : (∀ fault, e ≠ .raise fault) →
      ∀ v, Inflow b T.toState f.scope key f.body v → U.Since T₀ v.version)
    (hi : T.Untouched T₀ key i) : U.Untouched T₀ key i := by
  refine ⟨?_, ?_⟩
  · intro g v hg hv
    rw [hU, frame?_apply_self m hf, Option.some.injEq] at hg
    subst hg
    by_cases hraise : ∀ fault, e ≠ .raise fault
    · obtain ⟨v₀, hversion, hv₀ | hv₀⟩ := hm.carries hv
      · rw [← hversion]
        exact (hi.values f v₀ hf hv₀).step hr h
      · rw [← hversion]
        exact hin hraise v₀ hv₀
    · rw [not_forall] at hraise
      obtain ⟨fault, hfault⟩ := hraise
      rw [not_not] at hfault
      subst hfault
      exact (hi.values f v hf (hm.carries_raised hv)).step hr h
  · intro w hw hkey
    exact units_late h hlater hi (units_of_move hf hm hU (tracedStep_run h).1 hw) hkey

/-- A coroutine that starts is untouched. -/
theorem Traced.Untouched.started {i : ℕ} {f : Frame K V} (hf : U.frame? i = some f)
    (hstart : f.body.AtStart b) : U.Untouched T₀ key i := by
  refine ⟨?_, ?_⟩
  · intro g v hg hcarry
    rw [hf, Option.some.injEq] at hg
    subst hg
    exact absurd hcarry hstart.not_carries
  · intro w hw
    unfold Traced.units at hw
    rw [hf] at hw
    obtain ⟨c, body⟩ := f
    split at hw
    · rename_i heq
      cases heq
      cases hstart.2
    · rename_i heq
      cases heq
      cases hstart.2
    · cases hw

/-- What an untouched frame makes of an attempt comes from a later source call. -/
theorem Traced.Untouched.harvest (hr : Recorded T) {i : ℕ} {e : Event K V}
    (h : b.tracedStep T (.run i e) = some U) {c : Scope K} {keys rest : List K}
    {lo : OwnedLocals K V} {source : Source K} {sources : List (Source K)}
    {attempts : List (K × SourceAttempt K V)} {fresh : List (SnapshotValue K V)}
    {a : SourceAttempt K V} {v : SnapshotValue K V} {versions : Dict K ℕ}
    (hf : T.frame? i = some ⟨c, .resolveOwned keys lo
      (.harvesting source sources attempts (key :: rest) fresh)⟩)
    (ha : Dict.find attempts key = some a)
    (hh : b.harvest T.now T.revisions.length source key a = .fresh v versions ∨
      b.harvest T.now T.revisions.length source key a = .stale v versions)
    (hi : T.Untouched T₀ key i) : U.Since T₀ v.version := by
  obtain ⟨w, hw, hattempter, hkey⟩ := hr.attempter hf ha
  have hunits : T.units i = (T.gathered.get? i).getD [] := by
    unfold Traced.units
    rw [hf]
  have hproducing : T.producing b i = some w := by
    unfold Traced.producing
    rw [hf]
    dsimp only
    rw [ha, Option.map_some]
    rw [hunits] at hattempter
    rcases hh with hh | hh <;> (rw [hh]; exact hattempter)
  have hversion : v.version = T.revisions.length := by
    obtain ⟨payload, _, rfl⟩ := harvest_value hh
    rfl
  refine ⟨w, ?_, hi.units w hw hkey⟩
  rw [(tracedStep_run h).2, hproducing, Option.elim_some, hversion, Dict.get?_set_self]

/-! ## What a session takes in -/

/-- What every state satisfies since runtime `r` was opened while it takes in values of later source
calls only. -/
structure Watching (b : Builder K V) (T₀ : Traced K V) (key : K) (r : ℕ) (T : Traced K V) : Prop
    where
  recorded : Recorded T
  shape : Shape b T.toState
  later : T₀.frames.length ≤ T.frames.length
  opened : r < T.runtimes.length
  memo : ∀ v, (T.runtime r).memo.get? key = some v → T.Since T₀ v.version
  frames : ∀ i f, T.frame? i = some f → f.scope.runtime = r → T.Untouched T₀ key i
  flights : ∀ q, T.AwaitedBy r key q → T.FlightUntouched T₀ key q

theorem awaited_produce (hs : Shape b T.toState) {q : ℕ} (h : T.AwaitedBy r key q) :
    ∃ c owned, T.Called q c (.produce owned) := by
  obtain ⟨i, c, keys, l, futures, hf, _, hq⟩ := h
  obtain ⟨⟨cp, owned, hcalled, _⟩, _⟩ := (hs.frames i _ hf).body.2.1 _ hq
  exact ⟨cp, owned, hcalled⟩

theorem runs_owned (hs : Shape b T.toState) {q child : ℕ} (h : T.Runs q child) :
    ∃ c owned, T.Called child c (.owned owned) := by
  obtain ⟨c, owned, settled, hf⟩ := h
  exact ⟨c, owned, (hs.frames q _ hf).body.2.2⟩

/-- A frame of runtime `r`, or one that an awaited flight consists of. -/
def Traced.Watched (T : Traced K V) (key : K) (r i : ℕ) (f : Frame K V) : Prop :=
  f.scope.runtime = r ∨ ∃ q, T.AwaitedBy r key q ∧ (i = q ∨ T.Runs q i)

theorem Watching.untouched (hT : Watching b T₀ key r T) {i : ℕ} {f : Frame K V}
    (hf : T.frame? i = some f) (hw : T.Watched key r i f) : T.Untouched T₀ key i := by
  rcases hw with hr | ⟨q, hq, rfl | hruns⟩
  · exact hT.frames i f hf hr
  · exact (hT.flights i hq).1
  · exact (hT.flights q hq).2 i hruns

/-- Flights outside of runtime `r` consist of a producer and its source loop. -/
theorem Traced.Watched.call (hs : Shape b T.toState) {i : ℕ} {f : Frame K V}
    (hf : T.frame? i = some f) (hw : T.Watched key r i f) : f.scope.runtime = r ∨
      (∃ owned, f.body.call = .produce owned) ∨ ∃ owned, f.body.call = .owned owned := by
  have hself : T.Called i f.scope f.body.call := ⟨f, hf, rfl, rfl⟩
  rcases hw with hr | ⟨q, hq, rfl | hruns⟩
  · exact .inl hr
  · obtain ⟨c, owned, hc⟩ := awaited_produce hs hq
    exact .inr (.inl ⟨owned, (hself.unique hc).2⟩)
  · obtain ⟨c, owned, hc⟩ := runs_owned hs hruns
    exact .inr (.inr ⟨owned, (hself.unique hc).2⟩)

/-- Whatever a watched frame takes in comes from a later source call. -/
theorem Watching.inflow (hT : Watching b T₀ key r T) {i : ℕ} {e : Event K V}
    (hl : TakesSince T₀ key r T (.run i e)) (h : b.tracedStep T (.run i e) = some U)
    (hraise : ∀ fault, e ≠ .raise fault)
    {f : Frame K V} {m : Step K V} (hf : T.frame? i = some f)
    (hm : Move b T.toState f.scope f.body e m) (hw : T.Watched key r i f) {v : SnapshotValue K V}
    (hv : Inflow b T.toState f.scope key f.body v) : U.Since T₀ v.version := by
  have hnow : T.Since T₀ v.version → U.Since T₀ v.version := fun hs => hs.step hT.recorded h
  have hcall := hw.call hT.shape hf
  have hbody := (hT.shape.frames i f hf).body
  have huntouched := hT.untouched hf hw
  -- A child runs in the runtime of its parent.
  have hchild : ∀ child c call g, T.Called child c call → c.runtime = r →
      T.frame? child = some g → g.body.Carries key v → U.Since T₀ v.version := by
    rintro child c call g ⟨g', hg', rfl, _⟩ hr hg hcarry
    rw [hg, Option.some.injEq] at hg'
    subst hg'
    exact hnow ((hT.frames child g hg hr).values g v hg hcarry)
  obtain ⟨c, body⟩ := f
  cases hv with
  | pinned h =>
    have hr := hcall.resolve_right (by simp [Body.call])
    dsimp only at hr h
    rw [hr] at h
    exact hnow (hT.memo v (ResolutionRuntime.pinned_eq_some.mp h).2)
  | @visited keys lo sources _ hpin =>
    rcases hw with hr | ⟨q, hq, rfl | hruns⟩
    · dsimp only at hr hpin
      rw [hr] at hpin
      exact hnow (hT.memo v (ResolutionRuntime.pinned_eq_some.mp hpin).2)
    · obtain ⟨cq, owned, g, hg, _, hgcall⟩ := awaited_produce hT.shape hq
      rw [hf, Option.some.injEq] at hg
      subst hg
      cases hgcall
    · have hgo : e = .go := by
        cases hm with
        | owned hm =>
          cases hm with
          | interrupt hp => cases hp
          | _ => rfl
      subst hgo
      exact hnow (hl.visits i c keys lo sources q v rfl hf hq hruns hpin)
  | @read keys cacheKeys lo now _ hk hget =>
    have hr := hcall.resolve_right (by simp [Body.call])
    have hgo : e = .go := by
      cases hm with
      | many hm =>
        cases hm with
        | read => rfl
        | interrupt => exact absurd rfl (hraise _)
    subst hgo
    exact hnow (hl.reads i c keys lo cacheKeys now v rfl hf hr hk hget)
  | @superseded keys lo sources fresh _ hx hget =>
    obtain ⟨x, hx, hkey, hrank⟩ := hx
    have hgo : e = .go := by
      cases hm with
      | owned hm =>
        cases hm with
        | write => rfl
        | interrupt => exact absurd rfl (hraise _)
    subst hgo
    refine hnow (hl.winners i c keys lo sources fresh x v rfl hf ?_ hx hkey hget hrank)
    rcases hw with hr | ⟨q, hq, rfl | hruns⟩
    · exact .inl hr
    · obtain ⟨cq, owned, g, hg, _, hgcall⟩ := awaited_produce hT.shape hq
      rw [hf, Option.some.injEq] at hg
      subst hg
      cases hgcall
    · exact .inr ⟨q, hq, hruns⟩
  | delegated hg h =>
    have hr := hcall.resolve_right (by simp [Body.call])
    obtain ⟨_, _, ⟨owned, hc⟩, _⟩ := hbody
    exact hchild _ _ _ _ hc hr hg h
  | @joined keys lo futures q g _ hq hg h =>
    have hr := hcall.resolve_right (by simp [Body.call])
    have hawaited : T.AwaitedBy r key q := ⟨i, c, keys, lo, futures, hf, hr, hq⟩
    exact hnow ((hT.flights q hawaited).1.values g v hg h)
  | derived hg h =>
    have hr := hcall.resolve_right (by simp [Body.call])
    obtain ⟨_, _, _, _, _, k, declared, _, _, hc⟩ := hbody
    exact hchild _ _ _ _ hc hr hg h
  | @produced owned settled child g _ hg h =>
    rcases hw with hr | ⟨q, hq, rfl | hruns⟩
    · exact hchild _ _ _ _ hbody.2.2 hr hg h
    · exact hnow (((hT.flights i hq).2 child ⟨c, owned, settled, hf⟩).values g v hg h)
    · obtain ⟨cq, ks, g', hg', _, hgcall⟩ := runs_owned hT.shape hruns
      rw [hf, Option.some.injEq] at hg'
      subst hg'
      cases hgcall
  | harvested ha hh => exact huntouched.harvest hT.recorded h hf ha hh

/-- A watched frame is untouched after the step. -/
theorem Watching.keeps (hT : Watching b T₀ key r T) (hl : TakesSince T₀ key r T l)
    (h : b.tracedStep T l = some U) {i : ℕ} {f : Frame K V} (hf : T.frame? i = some f)
    (hw : T.Watched key r i f) : U.Untouched T₀ key i := by
  have hlt := lt_of_frame? hf
  obtain ⟨g, hg, _, _⟩ := (tracedStep_stepped h).called ⟨f, hf, rfl, rfl⟩
  cases (tracedStep_stepped h).came hg with
  | moved hf' hm hU _ =>
    rw [hf, Option.some.injEq] at hf'
    subst hf'
    exact (hT.untouched hf hw).move hT.recorded h hT.later hf hm hU
      fun hraise v hv => hT.inflow hl h hraise hf hm hw hv
  | started _ _ _ hi _ => exact absurd hlt (by omega)
  | called hi _ => exact absurd hlt (by omega)
  | stayed hne hf' => exact (hT.untouched hf hw).stay hT.recorded h hT.later hf' hg hne

/-! ## Stores of a step -/

/-- Where a cached value comes from: it was there, a coroutine has written it, or another owner of
the cache has put it there. -/
theorem Stepped.cache_cases {s t : State K V} (h : Stepped b s l t) {w : SnapshotValue K V}
    (hw : t.cache.get? key = some w) : s.cache.get? key = some w ∨
      (∃ i f v, l = .run i .go ∧ s.frame? i = some f ∧ v ∈ f.body.writing ∧ v.key = key ∧
        v.version = w.version) ∨
      ∃ cache, l = .external cache ∧ cache.get? key = some w := by
  cases h with
  | @run i e f m hf hm =>
    by_cases he : e = .go
    · subst he
      rcases hm.cache_cases hw with hold | ⟨v, hv, hk, rfl⟩
      · exact .inl hold
      · exact .inr (.inl ⟨i, f, v, rfl, hf, hv, hk, rfl⟩)
    · left
      have hcache := congrArg (fun s => s.cache) (hm.shared_of_ne_go he)
      exact hcache ▸ hw
  | external => exact .inr (.inr ⟨_, rfl, hw⟩)
  | _ => exact .inl hw

/-- Where a memo entry comes from. -/
theorem Stepped.memo_cases {s t : State K V} (h : Stepped b s l t) (hr : r < s.runtimes.length)
    {v : SnapshotValue K V} (hv : (t.runtime r).memo.get? key = some v) :
    (s.runtime r).memo.get? key = some v ∨ ∃ i f m, l = .run i .go ∧ s.frame? i = some f ∧
      Move b s f.scope f.body .go m ∧ f.scope.runtime = r ∧ Installs b s f.body key v := by
  cases h with
  | @run i e f m hf hm =>
    by_cases he : e = .go
    · subst he
      rcases hm.memo_cases hv with hold | ⟨hown, hi⟩
      · exact .inl hold
      · exact .inr ⟨i, f, m, rfl, hf, hm, hown.symm, hi⟩
    · left
      have hshared := hm.shared_of_ne_go he
      exact hshared ▸ hv
  | @openRuntime r' _ =>
    left
    rwa [runtime_append_lt (s := s.toShared) (r := r') rfl hr] at hv
  | _ => exact .inl hv

/-- The frames of runtime `r` stay untouched. -/
theorem Watching.frames_step (hT : Watching b T₀ key r T) (hl : TakesSince T₀ key r T l)
    (h : b.tracedStep T l = some U) {i : ℕ} {f : Frame K V} (hf : U.frame? i = some f)
    (hr : f.scope.runtime = r) : U.Untouched T₀ key i := by
  cases (tracedStep_stepped h).came hf with
  | moved hg _ _ hbody =>
    subst hbody
    exact hT.keeps hl h hg (.inl hr)
  | started _ hm _ _ hspawn => exact .started hf (hm.spawn_atStart hspawn)
  | called _ hcall =>
    subst hcall
    exact .started (b := b) hf ⟨rfl, rfl⟩
  | stayed _ hg => exact hT.keeps hl h hg (.inl hr)

/-- A frame that another one's move leaves alone stays untouched. -/
theorem Traced.Untouched.other (hr : Recorded T) {i j : ℕ} {e : Event K V}
    (h : b.tracedStep T (.run i e) = some U) (hlater : T₀.frames.length ≤ T.frames.length)
    {g : Frame K V} (hg : T.frame? j = some g) (hne : j ≠ i) (hj : T.Untouched T₀ key j) :
    U.Untouched T₀ key j := by
  obtain ⟨f, m, hf, _, hU⟩ := step_run.mp (tracedStep_step h)
  have hstay : U.frame? j = some g := by
    rw [hU]
    exact frame?_apply_other m hf hg hne
  refine hj.stay hr h hlater hg hstay fun e' he => ?_
  rw [Label.run.injEq] at he
  exact hne he.1.symm

/-- An untouched flight stays so when its frames do: its source loop is the old one or a new
coroutine. -/
theorem flight_step (h : b.tracedStep T l = some U) {q : ℕ} (hq : q < T.frames.length)
    (hself : U.Untouched T₀ key q) (hchild : ∀ child, T.Runs q child → U.Untouched T₀ key child) :
    U.FlightUntouched T₀ key q := by
  refine ⟨hself, ?_⟩
  rintro child ⟨c, owned, settled, hf⟩
  cases (tracedStep_stepped h).came hf with
  | @moved e g m hg hm hU hbody =>
    rw [Frame.mk.injEq] at hbody
    have hspawn : U.frame? T.frames.length = m.spawn := by
      rw [hU]
      exact frame?_apply_spawn m hg
    obtain ⟨c', body⟩ := g
    cases hm with
    | many hm => cases hm <;> cases hbody.2
    | owned hm => cases hm <;> cases hbody.2
    | work hm => cases hm <;> cases hbody.2
    | produce hm =>
      cases hm with
      | start =>
        cases hbody.2
        exact .started (b := b) hspawn ⟨rfl, rfl⟩
      | _ => cases hbody.2
    | refresh hm => cases hm <;> cases hbody.2
  | started _ _ _ hi _ => exact absurd hq (by omega)
  | called hi _ => exact absurd hq (by omega)
  | stayed _ hg => exact hchild child ⟨c, owned, settled, hg⟩

theorem Watching.step (hT : Watching b T₀ key r T) (hl : TakesSince T₀ key r T l)
    (h : b.tracedStep T l = some U) : Watching b T₀ key r U := by
  have hstep := tracedStep_stepped h
  refine ⟨hT.recorded.step h, hstep.shape hT.shape, le_trans hT.later hstep.frames_length,
    lt_of_lt_of_le hT.opened hstep.runtimes_length,
    ?_,
    fun i f hf hr => hT.frames_step hl h hf hr, ?_⟩
  · intro v hv
    rcases hstep.memo_cases hT.opened hv with hold | ⟨i, f, m, rfl, hf, hm, hr, hi⟩
    · exact (hT.memo v hold).step hT.recorded h
    · obtain ⟨v₀, hversion, hv₀ | hv₀⟩ := hi.supplied
      · rw [← hversion]
        exact ((hT.frames i f hf hr).values f v₀ hf hv₀).step hT.recorded h
      · rw [← hversion]
        exact hT.inflow hl h nofun hf hm (.inl hr) hv₀
  · rintro q ⟨i, c, keys, lo, futures, hf, hr, hq⟩
    -- A flight that was awaited before is watched.
    have hold : T.AwaitedBy r key q → U.FlightUntouched T₀ key q := by
      intro hawaited
      obtain ⟨cq, owned, g, hg, _⟩ := awaited_produce hT.shape hawaited
      refine flight_step h (lt_of_frame? hg) (hT.keeps hl h hg (.inr ⟨q, hawaited, .inl rfl⟩)) ?_
      intro child hruns
      obtain ⟨cc, ks, g', hg', _⟩ := runs_owned hT.shape hruns
      exact hT.keeps hl h hg' (.inr ⟨q, hawaited, .inr hruns⟩)
    cases hstep.came hf with
    | @moved e g m hg hm hU hbody =>
      rw [Frame.mk.injEq] at hbody
      obtain ⟨hscope, hbody⟩ := hbody
      obtain ⟨c', body⟩ := g
      dsimp only at hscope
      subst hscope
      have hspawn : U.frame? T.frames.length = m.spawn := by
        rw [hU]
        exact frame?_apply_spawn m hg
      cases hm with
      | many hm =>
        cases hm with
        | start =>
          rw [Body.resolveMany.injEq] at hbody
          obtain ⟨_, _, hp⟩ := hbody
          split at hp <;> cases hp
        | delegated =>
          rw [Body.resolveMany.injEq] at hbody
          obtain ⟨_, _, hp⟩ := hbody
          split at hp <;> cases hp
        | @reserve shared =>
          cases hbody
          obtain ⟨⟨hk, htask⟩, _⟩ := reserve_future hq
          rcases htask with htask | ⟨hnone, rfl⟩
          · -- A registered flight: it is untouched, and none of its frames moves.
            have hflight := hl.joins i _ q rfl hg hr hk htask
            obtain ⟨cp, owned, ⟨g, hg', _, hcall⟩, _⟩ := hT.shape.tasks key q htask
            have hself : T.Called i c (.many keys) := ⟨_, hg, rfl, rfl⟩
            have hne : q ≠ i := by
              rintro rfl
              rw [hg, Option.some.injEq] at hg'
              subst hg'
              cases hcall
            refine flight_step h (lt_of_frame? hg')
              (hflight.1.other hT.recorded h hT.later hg' hne) ?_
            intro child hruns
            obtain ⟨cc, ks, hchild⟩ := runs_owned hT.shape hruns
            have hne' : child ≠ i := by
              rintro rfl
              cases (hself.unique hchild).2
            obtain ⟨g'', hg'', _⟩ := hchild
            exact (hflight.2 child hruns).other hT.recorded h hT.later hg'' hne'
          · -- A flight of its own: the producer starts now.
            obtain ⟨owned, _, _, hsp⟩ := reserve_spawn (c := c) hk hnone
            change U.frame? T.frames.length = (T.toState.reserve c shared).2.2 at hspawn
            rw [hsp] at hspawn
            refine ⟨.started (b := b) hspawn ⟨rfl, rfl⟩, ?_⟩
            rintro child ⟨cc, owned', settled, hrunning⟩
            rw [hspawn] at hrunning
            cases hrunning
        | _ => cases hbody
      | owned hm => cases hm <;> cases hbody
      | work hm => cases hm <;> cases hbody
      | produce hm => cases hm <;> cases hbody
      | refresh hm => cases hm <;> cases hbody
    | started _ hm _ _ hspawn =>
      have hstart : _ ∧ _ := hm.spawn_atStart hspawn
      cases hstart.2
    | called _ hcall => cases hcall
    | stayed _ hg => exact hold ⟨i, c, keys, lo, futures, hg, hr, hq⟩

/-- A runtime that is opened with no older value of the key is watched from then on. -/
theorem watching_open (hr : Recorded T) (hs : Shape b T.toState) (hopen : RuntimesOpen T.toState)
    (hlater : T₀.frames.length ≤ T.frames.length) {runtime : ResolutionRuntime K V}
    (hmemo : ∀ v, runtime.memo.get? key = some v → T.Since T₀ v.version)
    (h : b.tracedStep T (.openRuntime runtime) = some U) :
    U.runtime T.runtimes.length = runtime ∧ Watching b T₀ key T.runtimes.length U := by
  have hstep := tracedStep_stepped h
  have hU := tracedStep_step h
  rw [Builder.step] at hU
  split at hU
  · have hsame := Option.some.inj hU
    have hruntimes : U.runtimes = T.runtimes ++ [runtime] :=
      congrArg (fun s => s.runtimes) hsame.symm
    have hruntime : U.runtime T.runtimes.length = runtime := by
      simp [Shared.runtime, hruntimes]
    have hframe : ∀ i f, U.frame? i = some f → f.scope.runtime ≠ T.runtimes.length := by
      intro i f hf
      rw [State.frame?, ← congrArg State.frames hsame] at hf
      exact Nat.ne_of_lt (hopen i f hf)
    refine ⟨hruntime, hr.step h, hstep.shape hs, le_trans hlater hstep.frames_length,
      by simp [hruntimes], fun v hv => ?_, fun i f hf heq => absurd heq (hframe i f hf), ?_⟩
    · rw [hruntime] at hv
      exact (hmemo v hv).step hr h
    · rintro q ⟨i, c, keys, l, futures, hf, heq, _⟩
      exact absurd heq (hframe i _ hf)
  · cases hU

end

/-- A check for `Traced.Since`. -/
def sinceCheck (T₀ T : Traced ℕ ℕ) (version : ℕ) : Bool :=
  (T.producers.get? version).any fun w => !T₀.callBegan w

theorem since_of_check {T₀ T : Traced ℕ ℕ} {n : ℕ} (h : sinceCheck T₀ T n = true) :
    T.Since T₀ n := by
  obtain ⟨w, hw, hbegan⟩ := (Option.any_eq_true _ _).mp h
  exact ⟨w, hw, by simpa using hbegan⟩

end Coalestra
