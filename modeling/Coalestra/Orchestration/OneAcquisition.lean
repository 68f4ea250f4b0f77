import Coalestra.Orchestration.Coherence
import Coalestra.Orchestration.KeyStages

/-! # One acquisition for a key

One resolution asks the sources for a key once, and everything computed from the key uses that one
revision, as long as no two source loops ask for the key at the same time. The builder does not
prevent it: keys that a call owns already are resolved without a flight, so two derived workers that
both miss the memo ask for a common dependency twice. -/

namespace Coalestra
set_option autoImplicit false
set_option maxHeartbeats 250000

section
variable {K V : Type} [DecidableEq K]

variable {b : Builder K V} {s t : State K V} {c : Scope K} {body : Body K V} {e : Event K V}
  {m : Step K V} {l : Label K V} {r i : ℕ} {r₀ : ResolutionRuntime K V}

/-! ## One revision -/

/-- Every value on its way is the revision that the memo of session `r` holds of its key, and every
recorded version is that of a memo entry. -/
def oneRevision (r : ℕ) (memo : ResolutionRuntime K V) : Discipline K V where
  covers _ o := o.2 = r
  covers_mono _ _ _ _ h := h
  asked _ _ _ := True
  acquired _ _ _ := True
  clock _ := True
  lookup _ k lookup := ∀ v, lookup.value = some v → memo.HasRevision k v
  candidate _ k v := memo.HasRevision k v
  copy _ k v := memo.HasRevision k v
  served _ k v := memo.HasRevision k v
  value _ k v := memo.HasRevision k v
  best _ _ _ := True
  winner _ k v := memo.HasRevision k v
  error _ _ _ := True
  raised _ _ := True
  failure _ _ _ := True
  attempt _ _ _ a := match a with
    | .succeeded _ versions => memo.Knows versions
    | .failed _ => True
  derivable _ _ _ := True
  dependencies _ _ _ versions := memo.Knows versions
  shares _ _ := True

theorem oneRevision_implies {memo memo' : ResolutionRuntime K V} (h : memo.Extends memo')
    (o : Origin) : (oneRevision r memo).Implies (oneRevision r memo') o where
  lookup k x hx v hv := (hx v hv).mono h
  candidate k v hv := hv.mono h
  copy k v hv := hv.mono h
  served k v hv := hv.mono h
  value k v hv := hv.mono h
  winner k v hv := hv.mono h
  attempt source k a ha := by
    cases a with
    | succeeded payload versions => exact ResolutionRuntime.Knows.mono ha h
    | failed err => trivial
  dependencies source keys versions hv := hv.mono h

/-- What runs of one resolution keep, in a session that was opened as `r₀` under the number `r`. -/
structure Resolving (b : Builder K V) (r₀ : ResolutionRuntime K V) (r : ℕ) (s : State K V) :
    Prop where
  shape : Shape b s
  whole : s.Whole
  latest : s.runtimes.length = r + 1
  scopes : ∀ i f, s.frame? i = some f → f.body.finished = true ∨ f.scope.runtime = r
  flights : ∀ k q cp call, s.tasks.get? k = some q → s.Called q cp call → cp.runtime = r
  loops : ∀ i c keys l p, s.frame? i = some ⟨c, .resolveOwned keys l p⟩ → c.runtime = r →
    LoopHolds s r l p
  forced : ∀ k ∈ (s.runtime r).forceRefreshKeys, (s.runtime r).memo.get? k = none
  cached : ∀ k v, s.cache.get? k = some v → (s.runtime r).HasRevision k v
  extends_opened : r₀.Extends (s.runtime r)
  derived : ∀ k v, (s.runtime r).memo.get? k = some v → r₀.memo.get? k = none →
    (s.runtime r).Knows v.dependencyVersions
  keeps : s.Keeps (oneRevision r (s.runtime r))
  stages : ∃ stage, Follows r₀ r s stage

/-- A lookup that is not due for a refresh schedules none. -/
theorem moveMany_undue {keys : List K} {lo : ManyLocals K V} {x : K × CacheLookup K V}
    {rest : List (K × CacheLookup K V)}
    (h : b.moveMany s c keys lo (.serving (x :: rest)) .go = some m)
    (hdue : b.refreshDue (.resolveMany keys lo (.serving (x :: rest))) = false) :
    m.shared = s.toShared ∧ m.spawn = none := by
  obtain ⟨key, lookup⟩ := x
  unfold Builder.moveMany at h
  unfold Builder.refreshDue at hdue
  dsimp only at h hdue
  split at h
  · cases h
    exact ⟨rfl, rfl⟩
  · rename_i value hvalue
    rw [hvalue, Option.isSome_some, Bool.true_and] at hdue
    split at h
    · rename_i hfresh
      rw [if_pos hfresh] at hdue
      cases h
      rw [hdue]
      exact ⟨rfl, rfl⟩
    · rename_i hfresh
      rw [if_neg hfresh] at hdue
      split at h
      · rw [hdue] at *
        contradiction
      · split at h <;> cases h <;> exact ⟨rfl, rfl⟩

/-- Without a refresh, every started coroutine belongs to the session of the one that starts it. -/
theorem move_undue {f : Frame K V} (h : b.move s f e = some m)
    (hdue : e = .go → b.refreshDue f.body = false) :
    m.shared.runtimes.length = s.runtimes.length ∧
      ∀ g, m.spawn = some g → g.scope.runtime = f.scope.runtime := by
  have hm := move_cases h
  obtain ⟨c, body⟩ := f
  have hspawn : m.shared.runtimes.length = s.runtimes.length →
      ∀ g, m.spawn = some g → g.scope.runtime = c.runtime := by
    intro hlen g hg
    rcases hm.spawn_runtime hg with hr | ⟨_, hlt, _⟩
    · exact hr
    · omega
  have hlen : m.shared.runtimes.length = s.runtimes.length := by
    rcases hm.runtimes with hr | hr | ⟨k, v, r', _, _, hr⟩
    · rw [hr]
    · cases hm with
      | many hm =>
        cases hm with
        | @hit key lookup rest =>
          unfold Builder.move at h
          rw [(moveMany_undue h (hdue rfl)).1]
        | reserve => rw [reserve_runtimes]
        | install => simp [Shared.remember, Shared.setRuntime]
        | fallBack => simp [Shared.remember, Shared.setRuntime]
        | collectValue => simp [Shared.refresh, Shared.setRuntime]
        | _ => rfl
      | owned hm =>
        cases hm with
        | accept => simp [Shared.refresh, Shared.setRuntime, Shared.issue]
        | installWinner => simp [Shared.remember, Shared.setRuntime]
        | finishStale => simp [Shared.remember, Shared.setRuntime]
        | _ => rfl
      | work hm => cases hm <;> rfl
      | produce hm => cases hm <;> rfl
      | refresh hm =>
        cases hm with
        | reserve => rw [reserve_runtimes]
        | _ => rfl
    · rw [hr, List.length_set]
  exact ⟨hlen, hspawn hlen⟩

/-- A fresh value is stored at once. -/
theorem Move.accepted {keys : List K} {lo : OwnedLocals K V} {source : Source K}
    {sources : List (Source K)} {attempts : List (K × SourceAttempt K V)} {k : K} {rest : List K}
    {fresh : List (SnapshotValue K V)} {a : SourceAttempt K V} {v : SnapshotValue K V}
    {versions : Dict K ℕ}
    (hm : Move b s c (.resolveOwned keys lo (.harvesting source sources attempts (k :: rest) fresh))
      e m) (ha : Dict.find attempts k = some a)
    (hh : b.harvest s.now s.revisions.length source k a = .fresh v versions) :
    m = ⟨(s.toShared.issue versions).refresh c.runtime k v,
      .resolveOwned keys { lo with resolved := lo.resolved.set k (.ok v) }
        (.harvesting source sources attempts rest (fresh ++ [v])), none⟩ := by
  cases hm with
  | owned hm =>
    cases hm with
    | harvestMissing ha' =>
      rw [ha] at ha'
      cases ha'
    | refuse ha' hh' =>
      rw [ha] at ha'
      cases ha'
      rw [hh] at hh'
      cases hh'
    | keep ha' hh' =>
      rw [ha] at ha'
      cases ha'
      rw [hh] at hh'
      cases hh'
    | accept ha' hh' =>
      rw [ha] at ha'
      cases ha'
      rw [hh] at hh'
      cases hh'
      rfl
    | interrupt hp => cases hp

theorem refresh_runtime {u : Shared K V} (hr : r < u.runtimes.length) (k : K)
    (v : SnapshotValue K V) :
    (u.refresh r k v).runtime r = ((u.runtime r).remember k v).markRefreshed k := by
  rw [Shared.refresh, Shared.runtime, setRuntime_runtimes, List.getElem?_set_self hr]
  rfl

/-- A key that is awaited is not in the memo. -/
theorem Resolving.awaited (T : Resolving b r₀ r s) {k : K} (h : s.Awaited r i k) :
    (s.runtime r).memo.get? k = none := by
  obtain ⟨stage, hstage⟩ := T.stages
  have hmemo := hstage.memo k
  rw [(hstage.awaited k i).mpr h] at hmemo
  simpa [KeyStage.remembered] using hmemo

/-- What a move of loop `i` or of another coroutine makes of the memo: nothing, another copy of a
revision that is there, or the value of an awaited key, which was computed from the memo. -/
inductive Remembers (s : State K V) (r i : ℕ) (r' : ResolutionRuntime K V) : Prop
  | same (h : r' = s.runtime r)
  | copied {k : K} {v : SnapshotValue K V} (hold : (s.runtime r).HasRevision k v)
      (h : (s.runtime r).Stored r' k v)
  | accepted {k : K} {v : SnapshotValue K V} (hawaited : s.Awaited r i k)
      (hknows : (s.runtime r).Knows v.dependencyVersions)
      (h : r' = ((s.runtime r).remember k v).markRefreshed k)

theorem Resolving.remembers (T : Resolving b r₀ r s) {f : Frame K V} (hf : s.frame? i = some f)
    (hr : f.scope.runtime = r) (hm : Move b s f.scope f.body e m) :
    Remembers s r i (m.shared.runtime r) := by
  have hlen : r < s.runtimes.length := by
    rw [T.latest]
    exact Nat.lt_succ_self r
  rcases hm.runtime r with hsame | ⟨_, k, v, hi, hstored⟩ | ⟨hge, _⟩
  · exact .same hsame
  · have hholds := T.keeps i f hf hr
    obtain ⟨c, body⟩ := f
    cases hi with
    | copied hcopy => exact .copied (hholds.installing hcopy) hstored
    | collected hres => exact .copied (hholds.1.results k _ hres) hstored
    | @accepted keys lo source sources attempts k rest fresh a v versions ha hh =>
      have hattempt := hholds.2.1 _ (Dict.mem_of_find ha)
      obtain ⟨payload, rfl, hvalue⟩ := harvest_value (.inl hh)
      refine .accepted (k := k) (v := v) ⟨_, hf, hr, List.mem_cons_self, List.not_mem_nil⟩ ?_ ?_
      · rw [hvalue]
        exact hattempt
      · rw [hm.accepted ha hh]
        subst hr
        exact refresh_runtime (u := s.toShared.issue versions) hlen k v
    | @kept keys lo k rest stales v hbest =>
      rw [(T.loops i _ _ _ _ hf hr).stale] at hbest
      cases hbest
  · omega

/-- No revision in the memo is replaced. -/
theorem Remembers.extends {r' : ResolutionRuntime K V} (h : Remembers s r i r')
    (T : Resolving b r₀ r s) : (s.runtime r).Extends r' := by
  cases h with
  | same h => exact .of_memo_eq (by rw [h])
  | @copied k v hold h =>
    obtain ⟨x, hx, hsame⟩ := hold
    refine h.extends fun w hw => ?_
    rw [hx, Option.some.injEq] at hw
    exact hw ▸ hsame
  | @accepted k v hawaited _ h =>
    have hstored : (s.runtime r).Stored r' k v := .inr h
    refine hstored.extends fun w hw => ?_
    rw [T.awaited hawaited] at hw
    cases hw

/-- Only an awaited key is new in the memo. -/
theorem Remembers.isSome {r' : ResolutionRuntime K V} (h : Remembers s r i r') (k : K) :
    (r'.memo.get? k).isSome = ((s.runtime r).memo.get? k).isSome ∨ s.Awaited r i k := by
  cases h with
  | same h =>
    rw [h]
    exact .inl rfl
  | @copied j v hold h =>
    left
    rw [h.memo, Dict.get?_set]
    split
    · rename_i hk
      subst hk
      obtain ⟨x, hx, _⟩ := hold
      rw [hx]
      rfl
    · rfl
  | @accepted j v hawaited _ h =>
    rw [h, ResolutionRuntime.memo_markRefreshed, ResolutionRuntime.memo_remember, Dict.get?_set]
    by_cases hk : k = j
    · rw [hk]
      exact .inr hawaited
    · rw [if_neg hk]
      exact .inl rfl

/-- A forced key has no entry until it is accepted, which ends the force. -/
theorem Remembers.forced {r' : ResolutionRuntime K V} (h : Remembers s r i r')
    (T : Resolving b r₀ r s) {k : K} (hk : k ∈ r'.forceRefreshKeys) : r'.memo.get? k = none := by
  cases h with
  | same h =>
    rw [h] at hk ⊢
    exact T.forced k hk
  | @copied j v hold h =>
    have hold' := T.forced k (h.force_subset hk)
    rw [h.memo, Dict.get?_set]
    split
    · rename_i hkj
      obtain ⟨x, hx, _⟩ := hold
      rw [← hkj, hold'] at hx
      cases hx
    · exact hold'
  | @accepted j v _ _ h =>
    rw [h] at hk ⊢
    obtain ⟨hforce, hkj⟩ := ResolutionRuntime.mem_force_markRefreshed.mp hk
    rw [ResolutionRuntime.memo_markRefreshed, ResolutionRuntime.memo_remember,
      Dict.get?_set_ne _ _ hkj]
    exact T.forced k hforce

/-- Every entry that the session did not start with was computed from the memo. -/
theorem Remembers.derived {r' : ResolutionRuntime K V} (h : Remembers s r i r')
    (T : Resolving b r₀ r s) {k : K} {v : SnapshotValue K V} (hv : r'.memo.get? k = some v)
    (hnew : r₀.memo.get? k = none) : r'.Knows v.dependencyVersions := by
  have hgrow := h.extends T
  cases h with
  | same h =>
    rw [h] at hv ⊢
    exact T.derived k v hv hnew
  | @copied j w hold h =>
    rw [h.memo, Dict.get?_set] at hv
    split at hv
    · rename_i hkj
      cases hv
      obtain ⟨x, hx, _, hdeps⟩ := hold
      rw [← hkj] at hx
      rw [← hdeps]
      exact (T.derived k x hx hnew).mono hgrow
    · exact (T.derived k v hv hnew).mono hgrow
  | @accepted j w _ hknows h =>
    rw [h, ResolutionRuntime.memo_markRefreshed, ResolutionRuntime.memo_remember,
      Dict.get?_set] at hv
    split at hv
    · cases hv
      exact hknows.mono hgrow
    · exact (T.derived k v hv hnew).mono hgrow

theorem Resolving.rules (T : Resolving b r₀ r s) {f : Frame K V} (hf : s.frame? i = some f)
    (hr : f.scope.runtime = r) (hm : Move b s f.scope f.body e m)
    (hgrow : (s.runtime r).Extends (m.shared.runtime r)) :
    Rules b s f.scope f.body e (oneRevision r (m.shared.runtime r)) where
  clock := trivial
  refreshed _ _ := trivial
  missing _ _ _ := trivial
  pinned k v _ hv := by
    rw [hr] at hv
    exact hgrow k v (ResolutionRuntime.pinned_eq_some.mp hv).2
  revisited k v _ hv := by
    rw [hr] at hv
    exact hgrow k v (ResolutionRuntime.pinned_eq_some.mp hv).2
  read now k lookup _ _ h := by
    intro v hv
    rcases h with ⟨hnone, _⟩ | ⟨w, hget, rfl, _⟩
    · rw [hnone] at hv
      cases hv
    · cases hv
      exact (T.cached k _ hget).mono hgrow
  isolated k lookup h := by
    intro v hv
    obtain ⟨w, hw, rfl⟩ := Option.map_eq_some_iff.mp hv
    exact h w hw
  hit k lookup v _ h hv _ := h v hv
  kept k lookup v h hv _ _ := h v hv
  fallback _ _ _ h _ := h
  installed _ _ _ h := h
  serve _ _ _ _ _ _ _ _ h := h
  joins k q cp owned _ hq hc := ⟨T.flights k q cp _ hq hc, trivial⟩
  shares_self := trivial
  joinValue _ _ _ _ _ _ h := h
  joinError _ _ _ _ _ _ _ := trivial
  joinRaised _ _ _ _ := trivial
  unsupported _ _ _ _ _ _ := trivial
  direct _ _ _ _ _ := .empty _
  undeclared _ _ _ _ _ _ := trivial
  cyclic _ _ _ _ _ _ _ _ _ _ := trivial
  depends _ _ _ _ _ _ _ _ _ _ _ := trivial
  derives _ _ _ _ _ _ _ _ := trivial
  unresolved _ _ _ := trivial
  childRaised _ _ _ _ := trivial
  versions _ _ _ _ hserved := .of_revisions hserved
  answered source keys versions payload k h _ := by
    unfold Builder.attemptOf
    split
    · exact h
    · trivial
  answeredBatch source keys versions payload k _ _ _ := by
    unfold Builder.attemptOf
    split
    · exact ResolutionRuntime.Knows.empty _
    · trivial
  omitted _ _ _ _ := trivial
  failed _ _ _ _ _ _ _ _ := trivial
  interrupted _ _ := trivial
  refused _ _ _ _ _ _ := trivial
  stale _ _ _ _ _ _ _ := ⟨trivial, fun _ => trivial⟩
  fresh keys lo source sources attempts k rest accepted a v versions hbody ha _ hh := by
    rw [hbody] at hm
    have hlen : r < s.runtimes.length := by
      rw [T.latest]
      exact Nat.lt_succ_self r
    refine ⟨v, ?_, rfl, rfl⟩
    rw [hm.accepted ha hh]
    subst hr
    show (((s.toShared.issue versions).refresh _ k v).runtime _).memo.get? k = some v
    rw [refresh_runtime (u := s.toShared.issue versions) hlen]
    exact Dict.get?_set_self _ _ _
  superseded fresh entry _ hentry := by
    obtain ⟨v, _, hkey, w, hfind, hstatus, hclone⟩ := mem_superseded hentry
    have hold := (setMany_ignored b s.cache fresh hfind (by rw [hstatus]; decide)).1
    rw [hclone, hkey]
    exact (T.cached v.key _ hold).mono hgrow
  supersedes _ _ _ _ _ _ _ _ h := h
  bestStale keys lo k v rest stales hbody hbest _ := by
    obtain ⟨c, body⟩ := f
    cases hbody
    rw [(T.loops i _ _ _ _ hf hr).stale] at hbest
    cases hbest
  exhausted _ _ _ := trivial
  omittedKey _ _ := trivial

/-! ## Steps -/

omit [DecidableEq K] in
/-- Only source loops offer keys. -/
theorem offered_of_call {body : Body K V} (h : ∀ keys, body.call ≠ .owned keys) :
    body.offered = [] ∧ body.queued = [] := by
  cases body with
  | resolveOwned keys lo p => exact absurd rfl (h keys)
  | _ => exact ⟨rfl, rfl⟩

/-- Only a source loop starts units of work. -/
theorem Move.spawn_asks (hm : Move b s c body e m) (hbody : ∀ keys, body.call ≠ .owned keys)
    {g : Frame K V} (hg : m.spawn = some g) (k : K) : g.body.call.asksFor k = false := by
  cases hm with
  | many hm =>
    cases hm with
    | delegate =>
      cases hg
      rfl
    | hit =>
      rw [schedule_spawn hg]
      rfl
    | reserve =>
      obtain ⟨owned, _, _, rfl⟩ := reserve_spawn_eq hg
      rfl
    | _ => cases hg
  | owned hm => exact absurd rfl (hbody _)
  | work hm =>
    cases hm with
    | depend =>
      cases hg
      rfl
    | _ => cases hg
  | produce hm =>
    cases hm with
    | start =>
      cases hg
      rfl
    | _ => cases hg
  | refresh hm =>
    cases hm with
    | reserve =>
      obtain ⟨owned, _, _, rfl⟩ := reserve_spawn_eq hg
      rfl
    | _ => cases hg

/-- A key that a source loop is about to offer has not been offered and is not in the memo. -/
theorem Resolving.idle (T : Resolving b r₀ r s) {stage : K → KeyStage}
    (hstage : Follows r₀ r s stage) {f : Frame K V} (hr : f.scope.runtime = r) {k : K}
    (hk : k ∈ f.choosing s)
    (halone : ∀ j g, s.frame? j = some g → g.scope.runtime = f.scope.runtime →
      k ∉ g.body.offered) : stage k = .idle := by
  have hmemo : ((s.runtime r).memo.get? k).isSome = false := by
    unfold Frame.choosing at hk
    split at hk
    · have hrest := (mem_candidates.mp hk).1
      obtain ⟨hu, hnot⟩ := mem_visit_rest.mp (List.mem_of_mem_filter hrest)
      have hpinned : (s.runtime r).pinned k = none := by
        rw [hr] at hnot
        cases hp : (s.runtime r).pinned k with
        | none => rfl
        | some v => exact absurd (mem_visit_resolved.mpr (.inl ⟨hu, by rw [hp]; rfl⟩)) hnot
      rw [ResolutionRuntime.pinned] at hpinned
      split at hpinned
      · rename_i hforce
        rw [T.forced k (ResolutionRuntime.requiresRefresh_eq_true.mp hforce)]
        rfl
      · rw [hpinned]
        rfl
    · cases hk
  rw [hstage.memo] at hmemo
  cases hx : stage k with
  | idle => rfl
  | queued j =>
    obtain ⟨g, hg, hgr, hqueued⟩ := (hstage.queued k j).mp hx
    refine absurd ?_ (halone j g hg (hgr.trans hr.symm))
    obtain ⟨cg, bodyg⟩ := g
    cases bodyg with
    | resolveOwned keys lo p => exact (T.loops j _ _ _ _ hg hgr).waiting k hqueued
    | _ => cases hqueued
  | awaited j =>
    obtain ⟨g, hg, hgr, hoffered, _⟩ := (hstage.awaited k j).mp hx
    exact absurd hoffered (halone j g hg (hgr.trans hr.symm))
  | kept =>
    rw [hx] at hmemo
    cases hmemo
  | acquired =>
    rw [hx] at hmemo
    cases hmemo

/-- A source loop that reads a fresh attempt acquires the key of the attempt and no other. -/
theorem Resolving.keyMove_read (T : Resolving b r₀ r s) {stage : K → KeyStage}
    (hstage : Follows r₀ r s stage) {keys : List K} {lo : OwnedLocals K V} {source : Source K}
    {sources : List (Source K)} {attempts : List (K × SourceAttempt K V)} {key : K} {rest : List K}
    {fresh : List (SnapshotValue K V)} (hf : s.frame? i =
      some ⟨c, .resolveOwned keys lo (.harvesting source sources attempts (key :: rest) fresh)⟩)
    (hr : c.runtime = r)
    (hm : Move b s c
      (.resolveOwned keys lo (.harvesting source sources attempts (key :: rest) fresh)) e m)
    (hread : ReadsFresh b s (.harvesting source sources attempts (key :: rest) fresh)) (k : K) :
    ∃ x, KeyMove s r i ⟨c, .resolveOwned keys lo
      (.harvesting source sources attempts (key :: rest) fresh)⟩ m k (stage k) x := by
  have hloop := T.loops i _ _ _ _ hf hr
  have hnodup := List.nodup_cons.mp hloop.offered
  have hlen : r < s.runtimes.length := by
    rw [T.latest]
    exact Nat.lt_succ_self r
  have hnone : ∀ g : Frame K V, none = some g → g.body.call.asksFor k = false := by
    intro g hg
    cases hg
  obtain ⟨a, v, versions, ha, hh⟩ := hread _ _ _ _ _ _ rfl
  have hmemo : ((s.toShared.issue versions).refresh c.runtime key v).runtime r =
      (((s.runtime r).remember key v).markRefreshed key) := by
    rw [hr]
    exact refresh_runtime (u := s.toShared.issue versions) hlen key v
  rw [hm.accepted ha hh]
  by_cases hk : k = key
  · subst hk
    have hawaited : stage k = .awaited i :=
      (hstage.awaited k i).mpr ⟨_, hf, hr, List.mem_cons_self, List.not_mem_nil⟩
    rw [hawaited]
    refine ⟨_, .accept hnodup.1 List.not_mem_nil rfl ?_ (hloop.worked k List.mem_cons_self)⟩
    rw [hmemo, ResolutionRuntime.memo_markRefreshed, ResolutionRuntime.memo_remember,
      Dict.get?_set_self]
    rfl
  · refine ⟨_, .stay ?_ Iff.rfl hnone ?_⟩
    · show k ∈ rest ↔ k ∈ key :: rest
      rw [List.mem_cons]
      exact ⟨.inr, fun h => h.resolve_left hk⟩
    · rw [hmemo, ResolutionRuntime.memo_markRefreshed, ResolutionRuntime.memo_remember,
        Dict.get?_set_ne _ _ hk]

/-- A move of a coroutine of the resolution takes every key from stage to stage. -/
theorem Resolving.keyMove (T : Resolving b r₀ r s) {stage : K → KeyStage}
    (hstage : Follows r₀ r s stage) {f : Frame K V} (hf : s.frame? i = some f)
    (hr : f.scope.runtime = r) (hm : Move b s f.scope f.body e m)
    (halone : ∀ k ∈ f.choosing s, ∀ j g, s.frame? j = some g → g.scope.runtime = f.scope.runtime →
      k ∉ g.body.offered)
    (hreads : ∀ keys lo p, f.body = .resolveOwned keys lo p → ReadsFresh b s p) (k : K) :
    ∃ x, KeyMove s r i f m k (stage k) x := by
  have hremembers := T.remembers hf hr hm
  have hmemo : k ∉ f.body.offered → ((m.shared.runtime r).memo.get? k).isSome =
      ((s.runtime r).memo.get? k).isSome := by
    intro hk
    rcases hremembers.isSome k with hsame | hawaited
    · exact hsame
    · exact absurd ((awaited_self hf hr k).mp hawaited).1 hk
  have hother : (∀ keys, f.body.call ≠ .owned keys) → ∃ x, KeyMove s r i f m k (stage k) x := by
    intro hcall
    obtain ⟨hoffered, hqueued⟩ := offered_of_call hcall
    have hcall' : ∀ keys, m.body.call ≠ .owned keys := by
      rw [hm.call]
      exact hcall
    obtain ⟨hoffered', hqueued'⟩ := offered_of_call hcall'
    refine ⟨_, .stay (by rw [hoffered, hoffered']) (by rw [hqueued, hqueued']) ?_ ?_⟩
    · exact fun g hg => hm.spawn_asks hcall hg k
    · refine hmemo ?_
      rw [hoffered]
      exact List.not_mem_nil
  have hidle := fun hk => T.idle hstage hr hk (halone k hk)
  have hnone : ∀ g : Frame K V, none = some g → g.body.call.asksFor k = false := by
    intro g hg
    cases hg
  obtain ⟨c, body⟩ := f
  cases hm with
  | many hm => exact hother fun _ h => (by cases h)
  | work hm => exact hother fun _ h => (by cases h)
  | produce hm => exact hother fun _ h => (by cases h)
  | refresh hm => exact hother fun _ h => (by cases h)
  | @owned keys lo p _ _ hm =>
    have hloop := T.loops i _ _ _ _ hf hr
    have hread := hreads _ _ _ rfl
    cases hm with
    | attempt hl hc =>
      subst hl
      rename_i source sources chosen
      by_cases hk : k ∈ chosen
      · have hchoosing : k ∈ Frame.choosing s
            ⟨c, .resolveOwned keys lo (.visiting (source :: sources))⟩ := by
          rw [hc] at hk
          exact hk
        rw [hidle hchoosing]
        refine ⟨_, .offer ?_ rfl rfl⟩
        show k ∈ (source.items chosen).flatten
        rw [source.flatten_items]
        exact hk
      · refine ⟨_, .stay (iff_of_false hk List.not_mem_nil) (iff_of_false ?_ List.not_mem_nil) hnone
          rfl⟩
        show k ∉ (source.items chosen).flatten
        rw [source.flatten_items]
        exact hk
    | @dispatch source sources chosen item queue children =>
      have hnodup := hloop.queued
      have hwaiting := hloop.waiting
      rw [OwnedPhase.queued, List.flatten_cons] at hnodup hwaiting
      by_cases hk : k ∈ item
      · have hqueued : stage k = .queued i := by
          refine (hstage.queued k i).mpr ⟨_, hf, hr, ?_⟩
          show k ∈ (item :: queue).flatten
          rw [List.flatten_cons]
          exact List.mem_append_left _ hk
        rw [hqueued]
        refine ⟨_, .start (hwaiting k (List.mem_append_left _ hk)) ?_ rfl hr ?_ rfl⟩
        · exact fun hmem => (List.nodup_append.mp hnodup).2.2 k hk k hmem rfl
        · exact decide_eq_true hk
      · refine ⟨_, .stay Iff.rfl ?_ ?_ rfl⟩
        · show k ∈ queue.flatten ↔ k ∈ (item :: queue).flatten
          rw [List.flatten_cons, List.mem_append]
          exact ⟨.inr, fun h => h.resolve_left hk⟩
        · rintro g hg
          cases hg
          exact decide_eq_false hk
    | gather => exact ⟨_, .stay Iff.rfl Iff.rfl hnone rfl⟩
    | harvestMissing ha => exact T.keyMove_read hstage hf hr (.owned (.harvestMissing ha)) hread k
    | refuse ha hh => exact T.keyMove_read hstage hf hr (.owned (.refuse ha hh)) hread k
    | keep ha hh => exact T.keyMove_read hstage hf hr (.owned (.keep ha hh)) hread k
    | accept ha hh => exact T.keyMove_read hstage hf hr (.owned (.accept ha hh)) hread k
    | interrupt hp =>
      have hquiet : p.offered = [] ∧ p.queued = [] := by
        cases p <;> first | exact ⟨rfl, rfl⟩ | cases hp
      have hout : k ∉ Body.offered (.resolveOwned keys lo p) := by
        rw [Body.offered, hquiet.1]
        exact List.not_mem_nil
      have hout' : k ∉ Body.queued (.resolveOwned keys lo p) := by
        rw [Body.queued, hquiet.2]
        exact List.not_mem_nil
      exact ⟨_, .stay (iff_of_false List.not_mem_nil hout) (iff_of_false List.not_mem_nil hout')
        hnone (hmemo hout)⟩
    | _ => exact ⟨_, .stay Iff.rfl Iff.rfl hnone (hmemo List.not_mem_nil)⟩

/-- A started source loop has done nothing yet. -/
theorem Move.spawn_owned (hm : Move b s c body e m) {c' : Scope K} {keys : List K}
    {lo : OwnedLocals K V} {p : OwnedPhase K V}
    (hg : m.spawn = some ⟨c', .resolveOwned keys lo p⟩) :
    lo = .new keys ∧ p = .visiting b.sources := by
  cases hm with
  | many hm =>
    cases hm with
    | delegate =>
      cases hg
      exact ⟨rfl, rfl⟩
    | hit => cases schedule_spawn hg
    | reserve =>
      obtain ⟨owned, _, _, heq⟩ := reserve_spawn_eq hg
      cases heq
    | _ => cases hg
  | owned hm => cases hm <;> cases hg
  | work hm => cases hm <;> cases hg
  | produce hm =>
    cases hm with
    | start =>
      cases hg
      exact ⟨rfl, rfl⟩
    | _ => cases hg
  | refresh hm =>
    cases hm with
    | reserve =>
      obtain ⟨owned, _, _, heq⟩ := reserve_spawn_eq hg
      cases heq
    | _ => cases hg

/-- The loops stay in order, and a started one begins so. -/
theorem Resolving.loops_apply (T : Resolving b r₀ r s) {f : Frame K V} (hf : s.frame? i = some f)
    (hm : Move b s f.scope f.body e m) (hwhole : (s.apply i f m).Whole)
    (hreads : ∀ keys lo p, f.body = .resolveOwned keys lo p → ReadsFresh b s p) :
    ∀ j c keys lo p, (s.apply i f m).frame? j = some ⟨c, .resolveOwned keys lo p⟩ →
      c.runtime = r → LoopHolds (s.apply i f m) r lo p := by
  intro j c keys lo p hj hc
  have hmono : ∀ k, s.Worked r k → (s.apply i f m).Worked r k := fun _ hw => hw.apply hf hm
  rcases frame?_apply_cases hf hj with ⟨rfl, hmoved⟩ | ⟨rfl, hsp⟩ | ⟨_, hg⟩
  · obtain ⟨c₀, body⟩ := f
    have hcall := hm.call
    rw [Frame.mk.injEq] at hmoved
    obtain ⟨rfl, hbody⟩ := hmoved
    rw [← hbody] at hcall
    cases hm with
    | @owned keys₀ lo₀ p₀ _ _ hm =>
      have hgather : ∀ source sources chosen children,
          p₀ = .attempting source sources chosen [] children →
          (∀ j ∈ children, (s.workOutcome j).isSome) → ∀ k ∈ chosen, s.Worked r k := by
        rintro source sources chosen children rfl hdone k hk
        rw [← hc]
        exact worked_of_gathered T.shape T.whole hf hdone hk
      obtain ⟨lo', p', hbody', hloop⟩ := hm.loopHolds (hreads _ _ _ rfl) hgather hmono
        (T.loops _ _ _ _ _ hf hc)
      rw [hbody', Body.resolveOwned.injEq] at hbody
      obtain ⟨_, rfl, rfl⟩ := hbody
      exact hloop
    | _ => cases hcall
  · obtain ⟨rfl, rfl⟩ := hm.spawn_owned hsp
    have hnodup := (hwhole _ _ hj).1
    exact .idle hnodup (fun k => rfl) rfl rfl rfl
  · exact (T.loops j _ _ _ _ hg hc).mono hmono

/-- Flights stay inside the session. -/
theorem Resolving.flights_apply (T : Resolving b r₀ r s) {f : Frame K V} (hf : s.frame? i = some f)
    (hm : Move b s f.scope f.body e m) (hspawn : ∀ g, m.spawn = some g → g.scope.runtime = r) :
    ∀ k q cp call, (s.apply i f m).tasks.get? k = some q → (s.apply i f m).Called q cp call →
      cp.runtime = r := by
  intro k q cp call hq hcalled
  rcases hm.tasks_cases hq with hold | rfl
  · obtain ⟨cq, owned, hcalled', _⟩ := T.shape.tasks k q hold
    obtain ⟨rfl, _⟩ := ((Stepped.run hf hm).called hcalled').unique hcalled
    exact T.flights k q cq _ hold hcalled'
  · obtain ⟨g, hg, rfl, _⟩ := hcalled
    rw [frame?_apply_spawn m hf] at hg
    exact hspawn g hg

/-- The attempt that a source loop reads is there and gives a fresh value. -/
theorem Resolving.readsFresh (T : Resolving b r₀ r s) (hl : FaultFree b s (.run i e))
    {f : Frame K V} (hf : s.frame? i = some f) (hm : Move b s f.scope f.body e m) {keys : List K}
    {lo : OwnedLocals K V} {p : OwnedPhase K V} (hbody : f.body = .resolveOwned keys lo p) :
    ReadsFresh b s p := by
  rintro source sources attempts k rest accepted rfl
  have hgo : e = .go := by
    rw [hbody] at hm
    cases hm with
    | owned hm =>
      cases hm with
      | interrupt hp => cases hp
      | _ => rfl
  have hmisses := T.whole.misses hf
  rw [hbody, Body.misses] at hmisses
  cases hfind : Dict.find attempts k with
  | none =>
    rw [hfind] at hmisses
    cases hmisses
  | some a =>
    obtain ⟨c, body⟩ := f
    cases hbody
    obtain ⟨v, versions, hh⟩ := hl.fresh i c keys lo source sources attempts k rest accepted a
      (by rw [hgo]) hf hfind
    exact ⟨a, v, versions, rfl, hh⟩

/-- A loop offers keys in its own turn. -/
theorem Move.go_of_choosing {f : Frame K V} (hm : Move b s f.scope f.body e m) {k : K}
    (hk : k ∈ f.choosing s) : e = .go := by
  obtain ⟨c, body⟩ := f
  unfold Frame.choosing at hk
  split at hk
  · rename_i hbody
    cases hbody
    cases hm with
    | owned hm =>
      cases hm with
      | interrupt hp => cases hp
      | _ => rfl
  · cases hk

/-- Everything that one resolution needs is kept by its steps. -/
theorem Resolving.step (T : Resolving b r₀ r s) (hl : StepsOnce b s l)
    (h : b.step s l = some t) : Resolving b r₀ r t := by
  rcases hl.faults.own with ⟨i, e, rfl⟩ | ⟨now, rfl⟩
  · have hstepped := step_cases h
    have hshape := hstepped.shape T.shape
    have hwhole := step_whole h T.whole
    obtain ⟨f, m, hf, hmove, rfl⟩ := step_run.mp h
    have hm := move_cases hmove
    have hr : f.scope.runtime = r := by
      rcases T.scopes i f hf with hfinished | hr
      · rw [hm.unfinished] at hfinished
        cases hfinished
      · exact hr
    obtain ⟨hlen, hspawn⟩ := move_undue hmove fun he => hl.undue i f (by rw [he]) hf
    rw [hr] at hspawn
    have hreads : ∀ keys lo p, f.body = .resolveOwned keys lo p → ReadsFresh b s p :=
      fun _ _ _ hbody => T.readsFresh hl.faults hf hm hbody
    have halone : ∀ k ∈ f.choosing s, ∀ j g, s.frame? j = some g →
        g.scope.runtime = f.scope.runtime → k ∉ g.body.offered := by
      intro k hk j g hg hsame
      exact hl.alone i f k j g (by rw [hm.go_of_choosing hk]) hf hk hg hsame
    have hremembers := T.remembers hf hr hm
    have hgrow := hremembers.extends T
    have hkeeps : s.Keeps (oneRevision r (m.shared.runtime r)) :=
      T.keeps.mono (oneRevision_implies hgrow) fun _ _ h => h
    refine ⟨hshape, hwhole, hlen.trans T.latest, ?_, T.flights_apply hf hm hspawn,
      T.loops_apply hf hm hwhole hreads, fun k hk => hremembers.forced T hk, ?_, ?_,
      fun k v hv hnew => hremembers.derived T hv hnew, ?_, ?_⟩
    · intro j g hg
      rcases frame?_apply_cases hf hg with ⟨rfl, rfl⟩ | ⟨_, hsp⟩ | ⟨_, hg⟩
      · exact .inr hr
      · exact .inr (hspawn g hsp)
      · exact T.scopes j g hg
    · intro k v hv
      rcases hm.cache_cases hv with hold | ⟨w, hw, rfl, rfl⟩
      · exact (T.cached k v hold).mono hgrow
      · exact ((T.keeps i f hf hr).writing w hw).2.mono hgrow
    · intro k v hv
      exact (T.extends_opened k v hv).mono hgrow
    · refine hstepped.keeps T.shape hkeeps ?_ ?_ ?_
      · intro j e' g m' hlabel hg hm' _
        cases hlabel
        rw [hf, Option.some.injEq] at hg
        subst hg
        exact T.rules hf hr hm hgrow
      · intro j e' g m' g' hlabel hg hm' hcov
        cases hlabel
        rw [hf, Option.some.injEq] at hg
        subst hg
        exact absurd hr hcov
      · intro _ _ _ _ hlabel
        cases hlabel
    · obtain ⟨stage, hstage⟩ := T.stages
      exact hstage.move hf hm hr (T.keyMove hstage hf hr hm halone hreads)
  · have hshape := (step_cases h).shape T.shape
    have hwhole := step_whole h T.whole
    cases h
    obtain ⟨stage, hstage⟩ := T.stages
    exact ⟨hshape, hwhole, T.latest, T.scopes, T.flights, fun i c keys lo p hf hc =>
      (T.loops i c keys lo p hf hc).mono fun k hk => hk, T.forced, T.cached, T.extends_opened,
      T.derived, T.keeps, stage, ⟨hstage.kept, hstage.memo, hstage.units, hstage.queued,
        hstage.awaited, hstage.worked⟩⟩

/-! ## The start of a resolution -/

/-- No coroutine is running and nothing is cached. -/
structure State.Cold (s : State K V) : Prop where
  finished : ∀ i f, s.frame? i = some f → f.body.finished = true
  uncached : ∀ k, s.cache.get? k = none

/-- Where no coroutine runs, no flight is registered. -/
theorem State.Cold.tasks (h : s.Cold) (hshape : Shape b s) (hopen : RegisteredOpen s) (k : K) :
    s.tasks.get? k = none := by
  cases hq : s.tasks.get? k with
  | none => rfl
  | some q =>
    obtain ⟨cp, owned, ⟨⟨cq, bodyq⟩, hf, rfl, hcall⟩, hk, _⟩ := hshape.tasks k q hq
    have hdone := h.finished q _ hf
    have hsettled := (hshape.frames q _ hf).body
    have hnone := future_none_of_frame hf (hopen k q hq)
    cases bodyq with
    | produce owned' settled p =>
      rw [Body.call, Call.produce.injEq] at hcall
      subst hcall
      cases p with
      | done =>
        obtain ⟨v, hv⟩ := Dict.mem_keys.mp (hsettled.2 k hk)
        rw [Body.settlement, hv] at hnone
        cases hnone
      | _ => cases hdone
    | _ => cases hcall

/-- Where a resolution starts: only its own coroutine runs in its session. -/
structure Opened (r₀ : ResolutionRuntime K V) (r : ℕ) (s : State K V) : Prop where
  runtime : s.runtime r = r₀
  latest : s.runtimes.length = r + 1
  forced : ∀ k ∈ r₀.forceRefreshKeys, r₀.memo.get? k = none
  tasks : ∀ k, s.tasks.get? k = none
  uncached : ∀ k, s.cache.get? k = none
  frames : ∀ i f, s.frame? i = some f → f.body.finished = true ∧ f.scope.runtime < r ∨
    ∃ deadline keys, f = callFrame r deadline keys

theorem opened_call {deadline : Option ℚ} {keys : List K} (hcold : s.Cold) (hshape : Shape b s)
    (hregistered : RegisteredOpen s) (hruntimes : RuntimesOpen s) {u : State K V}
    (hopen : b.step s (.openRuntime r₀) = some u)
    (hcall : b.step u (.call s.runtimes.length deadline keys) = some t) :
    Opened r₀ s.runtimes.length t := by
  cases step_cases hopen with
  | openRuntime hforced =>
    cases step_cases hcall with
    | call hlt =>
      refine ⟨?_, ?_, hforced, hcold.tasks hshape hregistered, hcold.uncached, ?_⟩
      · show ((s.runtimes ++ [r₀])[s.runtimes.length]?).getD _ = r₀
        rw [List.getElem?_concat_length]
        rfl
      · show (s.runtimes ++ [r₀]).length = _
        rw [List.length_append, List.length_singleton]
      · intro i f hf
        rcases frame?_append_cases hf with hold | ⟨_, rfl⟩
        · exact .inl ⟨hcold.finished i f hold, hruntimes i f hold⟩
        · exact .inr ⟨deadline, keys, rfl⟩

/-- The only coroutine of the session has offered nothing. -/
theorem Opened.own (h : Opened r₀ r s) {f : Frame K V} (hf : s.frame? i = some f)
    (hr : f.scope.runtime = r) : ∃ deadline keys, f = callFrame r deadline keys := by
  rcases h.frames i f hf with ⟨_, hlt⟩ | hcall
  · exact absurd hr (Nat.ne_of_lt hlt)
  · exact hcall

theorem Opened.units (h : Opened r₀ r s) (k : K) : s.units r k = 0 := by
  rw [State.units, List.countP_eq_zero]
  intro f hf
  obtain ⟨i, hi⟩ := List.mem_iff_getElem?.mp hf
  rcases h.frames i f hi with ⟨_, hlt⟩ | ⟨deadline, keys, rfl⟩
  · simp [Nat.ne_of_lt hlt]
  · simp [callFrame, Body.call, Call.asksFor]

theorem Opened.follows (h : Opened r₀ r s) :
    Follows r₀ r s fun k => if (r₀.memo.get? k).isSome then .kept else .idle := by
  have hqueues : ∀ k i, ¬ s.Queues r i k := by
    rintro k i ⟨f, hf, hr, hk⟩
    obtain ⟨deadline, keys, rfl⟩ := h.own hf hr
    cases hk
  have hawaited : ∀ k i, ¬ s.Awaited r i k := by
    rintro k i ⟨f, hf, hr, hk, _⟩
    obtain ⟨deadline, keys, rfl⟩ := h.own hf hr
    cases hk
  refine ⟨?_, ?_, ?_, ?_, ?_, ?_⟩
  · intro k
    split <;> simp_all
  · intro k
    rw [h.runtime]
    split <;> simp_all [KeyStage.remembered]
  · intro k
    rw [h.units]
    split <;> rfl
  · intro k i
    refine iff_of_false ?_ (hqueues k i)
    split <;> simp
  · intro k i
    refine iff_of_false ?_ (hawaited k i)
    split <;> simp
  · intro k hk
    split at hk <;> cases hk

theorem Opened.resolving (h : Opened r₀ r s) (hshape : Shape b s) (hwhole : s.Whole) :
    Resolving b r₀ r s where
  shape := hshape
  whole := hwhole
  latest := h.latest
  scopes i f hf := by
    rcases h.frames i f hf with ⟨hfinished, _⟩ | ⟨deadline, keys, rfl⟩
    · exact .inl hfinished
    · exact .inr rfl
  flights k q cp call hq _ := by
    rw [h.tasks] at hq
    cases hq
  loops i c keys lo p hf hr := by
    obtain ⟨deadline, ks, hcall⟩ := h.own hf hr
    rw [callFrame, Frame.mk.injEq] at hcall
    cases hcall.2
  forced k hk := by
    rw [h.runtime] at hk ⊢
    exact h.forced k hk
  cached k v hv := by
    rw [h.uncached] at hv
    cases hv
  extends_opened := .of_memo_eq (by rw [h.runtime])
  derived k v hv hnone := by
    rw [h.runtime, hnone] at hv
    cases hv
  keeps i f hf hr := by
    obtain ⟨deadline, ks, rfl⟩ := h.own hf hr
    exact (oneRevision r _).holds_many fun _ _ => trivial
  stages := ⟨_, h.follows⟩

/-! ## One acquisition -/

/-- Session `r`, opened as `r₀`, asks a source for a key at most once; for a key whose value it has
acquired, and for every key that it has asked for once its coroutines are done, one source has been
asked, once. What is computed from a value, and what is delivered, has that one revision of it. -/
structure State.AcquiredOnce (r₀ : ResolutionRuntime K V) (r : ℕ) (s : State K V) : Prop where
  once : ∀ k, s.units r k ≤ 1
  acquired : ∀ k v, (s.runtime r).memo.get? k = some v → r₀.memo.get? k = none →
    s.units r k = 1 ∧ s.Worked r k
  completed : (∀ i f, s.frame? i = some f → f.scope.runtime = r → f.body.finished = true) →
    ∀ k, s.units r k = 1 → ∃ v, (s.runtime r).memo.get? k = some v
  derived : ∀ k v, (s.runtime r).memo.get? k = some v → r₀.memo.get? k = none →
    (s.runtime r).Knows v.dependencyVersions
  delivered : ∀ i c keys l p k v, s.frame? i = some ⟨c, .resolveMany keys l p⟩ → c.runtime = r →
    l.values.get? k = some v → (s.runtime r).HasRevision k v

omit [DecidableEq K] in
/-- A finished coroutine offers nothing. -/
theorem offered_of_finished {body : Body K V} (h : body.finished = true) : body.offered = [] := by
  cases body with
  | resolveOwned keys l p =>
    cases p with
    | attempting => cases h
    | harvesting => cases h
    | _ => rfl
  | _ => rfl

theorem Resolving.acquiredOnce (T : Resolving b r₀ r s) : s.AcquiredOnce r₀ r := by
  obtain ⟨stage, hstage⟩ := T.stages
  refine ⟨?_, ?_, ?_, T.derived, ?_⟩
  · intro k
    rw [hstage.units]
    cases stage k <;> simp [KeyStage.units]
  · intro k v hv hnone
    have hkept := hstage.kept k
    have hmemo := hstage.memo k
    have hworked := hstage.worked k
    rw [hv, Option.isSome_some] at hmemo
    rw [hnone] at hkept
    rw [hstage.units]
    cases hx : stage k with
    | acquired => exact ⟨rfl, hworked hx⟩
    | kept => cases hkept.mp hx
    | _ =>
      rw [hx] at hmemo
      cases hmemo
  · intro hfinished k hunits
    have hmemo := hstage.memo k
    rw [hstage.units] at hunits
    cases hx : stage k with
    | acquired =>
      rw [hx] at hmemo
      exact Option.isSome_iff_exists.mp hmemo
    | awaited i =>
      obtain ⟨f, hf, hr, hk, _⟩ := (hstage.awaited k i).mp hx
      rw [offered_of_finished (hfinished i f hf hr)] at hk
      cases hk
    | _ =>
      rw [hx] at hunits
      cases hunits
  · intro i c keys l p k v hf hr hv
    exact (T.keeps i _ hf hr).1.values k v hv

/-- A resolution starts where no coroutine runs and nothing is cached. As long as its sources answer
with fresh values, no source loop offers a source a key that another loop of the session has offered
and not read, and no served value is due for a background refresh, every key is acquired once. -/
theorem acquired_once (b : Builder K V) {now : ℚ} {cache : AsyncMemoryCache K V}
    {revisions : List (Dict K ℕ)} {ls₀ ls : List (Label K V)} {s₀ s₁ s₂ t : State K V}
    (h₀ : Run b.step (State.initial now cache revisions) ls₀ s₀) (hcold : s₀.Cold)
    (hopen : b.step s₀ (.openRuntime r₀) = some s₁) {deadline : Option ℚ} {keys : List K}
    (hcall : b.step s₁ (.call s₀.runtimes.length deadline keys) = some s₂)
    (h : RunOf b.step (StepsOnce b) s₂ ls t) : t.AcquiredOnce r₀ s₀.runtimes.length := by
  have hinv := h₀.invariant (fun s => Shape b s ∧ RegisteredOpen s ∧ RuntimesOpen s)
    (fun s l t _ hs hstep => ⟨(step_cases hstep).shape hs.1,
      (step_cases hstep).registeredOpen hs.2.1, (step_cases hstep).runtimesOpen hs.2.2⟩)
    ⟨shape_initial b now cache revisions, ?_, ?_⟩
  · obtain ⟨hshape, hregistered, hruntimes⟩ := hinv
    have hwhole := step_whole hcall (step_whole hopen (whole_of_run h₀))
    have hstart := (opened_call hcold hshape hregistered hruntimes hopen hcall).resolving
      ((step_cases hcall).shape ((step_cases hopen).shape hshape)) hwhole
    have hend := h.invariant (Resolving b r₀ s₀.runtimes.length)
      (fun _ _ _ hl hs hstep => hs.step hl hstep) hstart
    exact hend.acquiredOnce
  · intro k q hk
    simp [State.initial] at hk
  · intro i f hf
    simp [State.frame?, State.initial] at hf

end

/-! ## Runs of one resolution -/

def faultFree (b : Builder ℕ ℕ) (s : State ℕ ℕ) : Label ℕ ℕ → Bool
  | .run i .go =>
    match s.frame? i with
    | some ⟨_, .resolveOwned _ _ (.harvesting source _ attempts (k :: _) _)⟩ =>
      (Dict.find attempts k).all fun a => (b.harvest s.now s.revisions.length source k a).isFresh
    | _ => true
  | .run _ _ => true
  | .tick _ => true
  | _ => false

theorem faultFree_of_check {b : Builder ℕ ℕ} {s : State ℕ ℕ} {l : Label ℕ ℕ}
    (h : faultFree b s l = true) : FaultFree b s l := by
  constructor
  · cases l with
    | run i e => exact .inl ⟨i, e, rfl⟩
    | tick now => exact .inr ⟨now, rfl⟩
    | _ => cases h
  · rintro i c keys lo source sources attempts k rest accepted a rfl hf ha
    simp only [faultFree, hf, ha, Option.all_some] at h
    cases hh : b.harvest s.now s.revisions.length source k a with
    | fresh v versions => exact ⟨v, versions, rfl⟩
    | _ =>
      rw [hh] at h
      cases h

def offersAlone (s : State ℕ ℕ) : Label ℕ ℕ → Bool
  | .run i .go => (s.frame? i).all fun f => (f.choosing s).all fun k => s.frames.all fun g =>
      !decide (g.scope.runtime = f.scope.runtime) || !decide (k ∈ g.body.offered)
  | _ => true

theorem offersAlone_of_check {s : State ℕ ℕ} {l : Label ℕ ℕ} (h : offersAlone s l = true) :
    OffersAlone s l := by
  rintro i f k j g rfl hf hk hg hr hoffered
  rw [offersAlone, hf, Option.all_some, List.all_eq_true] at h
  have hcheck := List.all_eq_true.mp (h k hk) g (List.mem_of_getElem? hg)
  rw [decide_eq_true hr, decide_eq_true hoffered] at hcheck
  cases hcheck

def servesUndue (b : Builder ℕ ℕ) (s : State ℕ ℕ) : Label ℕ ℕ → Bool
  | .run i .go => (s.frame? i).all fun f => !b.refreshDue f.body
  | _ => true

theorem servesUndue_of_check {b : Builder ℕ ℕ} {s : State ℕ ℕ} {l : Label ℕ ℕ}
    (h : servesUndue b s l = true) : ServesUndue b s l := by
  rintro i f rfl hf
  rwa [servesUndue, hf, Option.all_some, Bool.not_eq_true'] at h

theorem coldState_cold : coldState.Cold := by
  constructor
  · intro i f hf
    simp [coldState, State.frame?, State.initial] at hf
  · intro k
    rfl

/-- Keys 2 and 1, where key 2 is derived from key 1: one call of a source each. -/
theorem acquired_once_derived : ∃ s₁ s₂ t : State ℕ ℕ,
    chainBuilder.step coldState (.openRuntime .new) = some s₁ ∧
      chainBuilder.step s₁ (.call 0 none [2, 1]) = some s₂ ∧
      RunOf chainBuilder.step (StepsOnce chainBuilder) s₂ (derivedWithSource.drop 2) t ∧
      t.AcquiredOnce .new 0 ∧ t.units 0 1 = 1 ∧ t.units 0 2 = 1 := by
  have hend : ((chainBuilder.step coldState (.openRuntime .new)).bind fun s₁ =>
      (chainBuilder.step s₁ (.call 0 none [2, 1])).bind fun s₂ =>
        (execOf chainBuilder.step (fun s l => faultFree chainBuilder s l && offersAlone s l &&
          servesUndue chainBuilder s l) s₂ (derivedWithSource.drop 2)).map fun t =>
            (t.units 0 1, t.units 0 2)) = some (1, 1) := by
    decide +kernel
  obtain ⟨s₁, hopen, hend⟩ := Option.bind_eq_some_iff.mp hend
  obtain ⟨s₂, hcall, hend⟩ := Option.bind_eq_some_iff.mp hend
  obtain ⟨t, ht, hunits⟩ := Option.map_eq_some_iff.mp hend
  have hrun : RunOf chainBuilder.step (StepsOnce chainBuilder) s₂ (derivedWithSource.drop 2) t := by
    refine (execOf_run ht).mono fun s l h => ?_
    rw [Bool.and_eq_true, Bool.and_eq_true] at h
    exact ⟨faultFree_of_check h.1.1, offersAlone_of_check h.1.2, servesUndue_of_check h.2⟩
  rw [Prod.mk.injEq] at hunits
  exact ⟨s₁, s₂, t, hopen, hcall, hrun,
    acquired_once chainBuilder (.nil _) coldState_cold hopen hcall hrun, hunits⟩

/-- Keys 0 and 1 are derived from key 2, and all three are asked for: each of the two derived workers
asks the source of key 2. -/
theorem shared_dependency_acquired_twice : Acyclic sharedBuilder.DependsOn ∧
    ∃ s₁ s₂ t : State ℕ ℕ, sharedBuilder.step coldState (.openRuntime .new) = some s₁ ∧
      sharedBuilder.step s₁ (.call 0 none [0, 1, 2]) = some s₂ ∧
      RunOf sharedBuilder.step
        (fun s l => FaultFree sharedBuilder s l ∧ ServesUndue sharedBuilder s l) s₂
        (twoDerived.drop 2) t ∧ t.units 0 2 = 2 ∧ ¬ t.AcquiredOnce .new 0 := by
  refine ⟨sharedBuilder_acyclic, ?_⟩
  have hend : ((sharedBuilder.step coldState (.openRuntime .new)).bind fun s₁ =>
      (sharedBuilder.step s₁ (.call 0 none [0, 1, 2])).bind fun s₂ =>
        (execOf sharedBuilder.step (fun s l => faultFree sharedBuilder s l &&
          servesUndue sharedBuilder s l) s₂ (twoDerived.drop 2)).map fun t => t.units 0 2) =
            some 2 := by
    decide +kernel
  obtain ⟨s₁, hopen, hend⟩ := Option.bind_eq_some_iff.mp hend
  obtain ⟨s₂, hcall, hend⟩ := Option.bind_eq_some_iff.mp hend
  obtain ⟨t, ht, hunits⟩ := Option.map_eq_some_iff.mp hend
  refine ⟨s₁, s₂, t, hopen, hcall, ?_, hunits, ?_⟩
  · refine (execOf_run ht).mono fun s l h => ?_
    rw [Bool.and_eq_true] at h
    exact ⟨faultFree_of_check h.1, servesUndue_of_check h.2⟩
  · intro honce
    have hle := honce.once 2
    omega

end Coalestra
