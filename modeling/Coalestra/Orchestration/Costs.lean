import Mathlib.Data.Finset.Card
import Coalestra.Orchestration.Cycles

/-! # The recursion ends

Every coroutine has a cost that bounds how often it and the coroutines it starts in its runtime can
still move. A unit of derived work costs one nested resolution more than its ancestry allows for, so
the costs are defined by the number of keys that can still be added to the ancestry. -/

namespace Coalestra
set_option autoImplicit false
set_option maxHeartbeats 250000

/-! ## Costs -/

/-- One visit of a source for `n` unresolved keys, when a unit of work costs `w`. -/
def visitCost (w n : ℕ) : ℕ := (n + 1) * (w + 1) + 4 * n + 8

/-- A call of `_resolve_owned_keys` for `n` keys with `sources` sources to visit. -/
def ownedCost (sources w n : ℕ) : ℕ := sources * visitCost w n + n + 4

def produceCost (sources w n : ℕ) : ℕ := ownedCost sources w n + n + 3

/-- The end of `_resolve_many` for `n` pending keys. -/
def pendingCost (sources w n : ℕ) : ℕ :=
  ownedCost sources w n + produceCost sources w n + 2 * n + 6

def manyCost (sources w n : ℕ) : ℕ := pendingCost sources w n + 3 * n + 3

/-- A unit of work whose ancestry may still grow by `depth` of `width` keys. -/
def workCost (sources width : ℕ) : ℕ → ℕ
  | 0 => 5
  | depth + 1 => 5 + manyCost sources (workCost sources width depth) width

section
variable (sources w : ℕ)

theorem visitCost_mono {n n' : ℕ} (h : n ≤ n') : visitCost w n ≤ visitCost w n' := by
  have hvisit : (n + 1) * (w + 1) ≤ (n' + 1) * (w + 1) :=
    Nat.mul_le_mul_right (w + 1) (Nat.add_le_add_right h 1)
  unfold visitCost
  omega

theorem ownedCost_mono {n n' : ℕ} (h : n ≤ n') : ownedCost sources w n ≤ ownedCost sources w n' := by
  have := Nat.mul_le_mul_left sources (visitCost_mono w h)
  unfold ownedCost
  omega

theorem produceCost_mono {n n' : ℕ} (h : n ≤ n') :
    produceCost sources w n ≤ produceCost sources w n' := by
  have := ownedCost_mono sources w h
  unfold produceCost
  omega

theorem pendingCost_mono {n n' : ℕ} (h : n ≤ n') :
    pendingCost sources w n ≤ pendingCost sources w n' := by
  have := ownedCost_mono sources w h
  have := produceCost_mono sources w h
  unfold pendingCost
  omega

theorem manyCost_mono {n n' : ℕ} (h : n ≤ n') : manyCost sources w n ≤ manyCost sources w n' := by
  have := pendingCost_mono sources w h
  unfold manyCost
  omega

theorem five_le_workCost (sources width depth : ℕ) : 5 ≤ workCost sources width depth := by
  cases depth with
  | zero => exact le_rfl
  | succ depth => exact Nat.le_add_right 5 _

end

section
variable {K V : Type} [DecidableEq K]

def ManyPhase.cost (sources w : ℕ) (keys : List K) (l : ManyLocals K V) : ManyPhase K V → ℕ
  | .start => manyCost sources w keys.length
  | .reading cacheKeys _ =>
    pendingCost sources w (l.pending.length + cacheKeys.length) + 3 * cacheKeys.length + 2
  | .isolating lookups =>
    pendingCost sources w (l.pending.length + lookups.length) + 3 * lookups.length + 1
  | .serving lookups =>
    pendingCost sources w (l.pending.length + lookups.length) + 3 * lookups.length
  | .copying _ _ rest =>
    pendingCost sources w (l.pending.length + rest.length) + 3 * rest.length + 1
  | .resolving _ shared => produceCost sources w shared.length + 2 * l.pending.length + 4
  | .reserving shared => produceCost sources w shared.length + 2 * l.pending.length + 3
  | .joining _ => 2 * l.pending.length + 2
  | .collecting rest => 2 * rest.length + 1
  | .fallback _ _ rest => 2 * rest.length + 2
  | .done | .raised _ => 0

/-- What is left of `_resolve_owned_keys` after this visit. -/
def OwnedLocals.restCost (w : ℕ) (l : OwnedLocals K V) (sources : List (Source K)) : ℕ :=
  ownedCost sources.length w l.unresolved.length

def OwnedPhase.cost (w : ℕ) (l : OwnedLocals K V) : OwnedPhase K V → ℕ
  | .visiting sources => l.restCost w sources
  | .attempting _ sources chosen queue _ =>
    l.restCost w sources + queue.length * (w + 1) + 4 * chosen.length + 6
  | .harvesting _ sources _ rest fresh =>
    l.restCost w sources + 4 * rest.length + 3 * fresh.length + 5
  | .writing sources fresh => l.restCost w sources + 3 * fresh.length + 4
  | .written sources winners => l.restCost w sources + 3 * winners.length + 3
  | .superseding sources winners => l.restCost w sources + 3 * winners.length + 2
  | .copyingWinner sources _ _ rest => l.restCost w sources + 3 * rest.length + 3
  | .finishing rest _ => rest.length + 3
  | .staleWriting _ => 2
  | .staleWritten => 1
  | .done | .raised _ => 0

def WorkPhase.cost (w : ℕ) : WorkPhase K V → ℕ
  | .start => w
  | .resolving _ => 3
  | .isolating _ => 2
  | .calling _ => 1
  | .done _ => 0

def ProducePhase.cost (sources w : ℕ) (owned : List K) : ProducePhase K V → ℕ
  | .start => produceCost sources w owned.length
  | .running _ => owned.length + 2
  | .completing rest _ => rest.length + 1
  | .done => 0

def RefreshPhase.cost (sources w : ℕ) : RefreshPhase K → ℕ
  | .reserving => produceCost sources w 1 + 2
  | .joining _ => 1
  | .done => 0

/-- The moves left to a coroutine and to those it starts, when a unit of work costs `w`. -/
def Body.cost (sources w : ℕ) : Body K V → ℕ
  | .resolveMany keys l p => p.cost sources w keys l
  | .resolveOwned _ l p => p.cost w l
  | .work _ _ p => p.cost w
  | .produce owned _ p => p.cost sources w owned
  | .refresh _ p => p.cost sources w

/-- The cost of a frame among `width` keys. -/
def Frame.cost (sources width : ℕ) (f : Frame K V) : ℕ :=
  f.body.cost sources (workCost sources width (width - f.scope.ancestry.length))

/-- The cost of a started frame, as far as it runs in runtime `r`. -/
def Step.spawnCost (sources width r : ℕ) (m : Step K V) : ℕ :=
  m.spawn.elim 0 fun g => if g.scope.runtime = r then g.cost sources width else 0

/-! ## One move -/

omit [DecidableEq K] in
theorem length_chunksOf {size : ℕ} (h : 1 ≤ size) : ∀ (fuel : ℕ) (keys : List K),
    (chunksOf size fuel keys).length ≤ keys.length
  | 0, keys => Nat.zero_le _
  | fuel + 1, [] => Nat.zero_le _
  | fuel + 1, k :: keys => by
      have hrest := length_chunksOf h fuel ((k :: keys).drop size)
      rw [List.length_drop] at hrest
      rw [List.length_cons] at hrest
      rw [chunksOf, List.length_cons, List.length_cons]
      · omega
      · simp

omit [DecidableEq K] in
theorem length_items (source : Source K) (keys : List K) :
    (source.items keys).length ≤ keys.length + 1 := by
  unfold Source.items
  split
  · simp
  · rename_i size _
    exact le_trans (length_chunksOf size.pos _ _) (Nat.le_succ _)
  · simp

variable {b : Builder K V} {s : State K V} {c : Scope K} {e : Event K V} {m : Step K V}
  {width w : ℕ}

/-- Keys to be refreshed and keys to be read are different keys. -/
theorem length_pending_cacheKeys (r : ResolutionRuntime K V) : ∀ keys : List K,
    (keys.filter r.requiresRefresh).length + (cacheKeysOf r keys).length ≤ keys.length
  | [] => le_rfl
  | k :: keys => by
      have hrest := length_pending_cacheKeys r keys
      unfold cacheKeysOf at hrest ⊢
      rw [List.filter_cons, List.filter_cons, List.length_cons]
      by_cases hk : r.requiresRefresh k = true
      · simp only [hk, if_true, Bool.not_true, Bool.false_and, Bool.false_eq_true, if_false,
          List.length_cons]
        omega
      · rw [if_neg hk]
        split
        · rw [List.length_cons]
          omega
        · omega

theorem spawnCost_none (r : ℕ) (shared : Shared K V) (body : Body K V) :
    (Step.mk shared body none).spawnCost (b.sources.length) width r = 0 := rfl

/-- What a started frame of the same ancestry costs at most. -/
theorem spawnCost_le {r bound : ℕ} (h : ∀ g, m.spawn = some g → g.scope.runtime = r →
    g.cost b.sources.length width ≤ bound) : m.spawnCost b.sources.length width r ≤ bound := by
  unfold Step.spawnCost
  cases hg : m.spawn with
  | none => exact Nat.zero_le _
  | some g =>
    rw [Option.elim_some]
    split
    · exact h g hg ‹_›
    · exact Nat.zero_le _

/-- A reservation starts at most one producer, for keys it was asked for. -/
theorem reserve_cost {keys : List K} {r : ℕ} (hm : m.spawn = (s.reserve c keys).2.2) :
    m.spawnCost b.sources.length width r ≤ produceCost b.sources.length
      (workCost b.sources.length width (width - c.ancestry.length)) keys.length := by
  refine spawnCost_le fun g hg _ => ?_
  rw [hm] at hg
  unfold State.reserve at hg
  dsimp only at hg
  split at hg
  · cases hg
  · cases hg
    exact produceCost_mono _ _ (List.length_filter_le _ _)

theorem ManyMove.cost {keys : List K} {l : ManyLocals K V} {p : ManyPhase K V}
    (hm : ManyMove b s c keys l p e m) (hr : c.runtime < s.runtimes.length)
    (hw : w = workCost b.sources.length width (width - c.ancestry.length)) :
    m.body.cost b.sources.length w + m.spawnCost b.sources.length width c.runtime + 1 ≤
      p.cost b.sources.length w keys l := by
  have hpending : ∀ {n n' : ℕ}, n ≤ n' →
      pendingCost b.sources.length w n ≤ pendingCost b.sources.length w n' := pendingCost_mono _ _
  have hend : ∀ n, 2 * n + 6 ≤ pendingCost b.sources.length w n := by
    intro n
    unfold pendingCost
    omega
  have hspawn : ∀ shared body, (Step.mk shared body none : Step K V).spawnCost b.sources.length
      width c.runtime = 0 := fun _ _ => rfl
  -- A scheduled refresh runs in a runtime of its own.
  have hschedule : ∀ key wanted body, (Step.mk (s.schedule key wanted).1 body
      (s.schedule key wanted).2 : Step K V).spawnCost b.sources.length width c.runtime = 0 := by
    intro key wanted body
    refine Nat.le_zero.mp (spawnCost_le fun g hg hown => ?_)
    rw [schedule_spawn hg] at hown
    dsimp only at hown
    omega
  have hreserve : ∀ shared body, (Step.mk (s.reserve c shared).2.1 body
      (s.reserve c shared).2.2 : Step K V).spawnCost b.sources.length width c.runtime ≤
        produceCost b.sources.length w shared.length := by
    intro shared body
    rw [hw]
    exact reserve_cost rfl
  cases hm with
  | start =>
    have hlen := length_pending_cacheKeys (s.runtime c.runtime) keys
    rw [hspawn]
    show ManyPhase.cost _ w keys _ (if _ then _ else _) + 0 + 1 ≤ manyCost _ w keys.length
    split
    · have := hpending (show (keys.filter (s.runtime c.runtime).requiresRefresh).length + 0 ≤
        keys.length by omega)
      simp only [ManyPhase.cost, manyCost, List.length_nil]
      omega
    · have := hpending hlen
      simp only [ManyPhase.cost, manyCost]
      omega
  | @read cacheKeys now =>
    have hlen : (s.cache.getMany now b.policyFor cacheKeys).1.length ≤ cacheKeys.length := by
      rw [← List.length_map (f := Prod.fst), AsyncMemoryCache.getMany,
        AsyncMemoryCache.getManyLocked_keys]
      exact Dict.length_fromKeys cacheKeys
    have := hpending (Nat.add_le_add_left hlen l.pending.length)
    rw [hspawn]
    simp only [Body.cost, ManyPhase.cost]
    omega
  | isolate =>
    rw [hspawn]
    simp only [Body.cost, ManyPhase.cost, List.length_map]
    omega
  | served =>
    have := hend (l.pending.length + 0)
    rw [hspawn]
    simp only [Body.cost, ManyPhase.cost, List.length_nil]
    omega
  | share =>
    have hlen := List.length_filter_le
      (fun key => !ownsDirectly c (s.runtime c.runtime) key) l.pending
    have := produceCost_mono b.sources.length w hlen
    rw [hspawn]
    simp only [Body.cost, ManyPhase.cost, pendingCost, List.length_nil, Nat.add_zero]
    omega
  | delegate =>
    have hlen := List.length_filter_le
      (fun key => !ownsDirectly c (s.runtime c.runtime) key) l.pending
    have hlen' := List.length_filter_le (ownsDirectly c (s.runtime c.runtime)) l.pending
    have := produceCost_mono b.sources.length w hlen
    have := ownedCost_mono b.sources.length w hlen'
    simp only [Body.cost, ManyPhase.cost, pendingCost, List.length_nil, Nat.add_zero,
      Step.spawnCost, Option.elim_some, if_true, Frame.cost, OwnedPhase.cost, OwnedLocals.restCost,
      OwnedLocals.new, ← hw]
    omega
  | @hit key _ rest _ _ wanted _ _ =>
    have := hpending (show l.pending.length + rest.length ≤ l.pending.length + (rest.length + 1)
      by omega)
    rw [hschedule key wanted]
    simp only [Body.cost, ManyPhase.cost, List.length_cons]
    omega
  | @miss key _ rest =>
    have := hpending (show l.pending.length + 1 + rest.length ≤ l.pending.length + (rest.length + 1)
      by omega)
    rw [hspawn]
    simp only [Body.cost, ManyPhase.cost, List.length_append, List.length_cons, List.length_nil,
      Nat.zero_add]
    omega
  | @missStale _ _ rest _ _ _ _ =>
    have := hpending (show l.pending.length + 1 + rest.length ≤ l.pending.length + (rest.length + 1)
      by omega)
    rw [hspawn]
    simp only [Body.cost, ManyPhase.cost, List.length_append, List.length_cons, List.length_nil,
      Nat.zero_add]
    omega
  | install =>
    rw [hspawn]
    simp only [Body.cost, ManyPhase.cost]
    omega
  | @delegated _ shared =>
    rw [hspawn]
    show ManyPhase.cost _ w keys _ (if _ then _ else _) + 0 + 1 ≤ _
    split
    · simp only [ManyPhase.cost]
      omega
    · simp only [ManyPhase.cost]
      omega
  | delegateRaised =>
    rw [hspawn]
    simp only [Body.cost, ManyPhase.cost]
    omega
  | @reserve shared =>
    have := hreserve shared (.resolveMany keys l (.joining (s.reserve c shared).1))
    simp only [Body.cost, ManyPhase.cost]
    omega
  | joined =>
    rw [hspawn]
    simp only [Body.cost, ManyPhase.cost]
    omega
  | joinRaised =>
    rw [hspawn]
    simp only [Body.cost, ManyPhase.cost]
    omega
  | collected =>
    rw [hspawn]
    simp only [Body.cost, ManyPhase.cost]
    omega
  | collectMissing =>
    rw [hspawn]
    simp only [Body.cost, ManyPhase.cost, List.length_cons]
    omega
  | collectValue =>
    rw [hspawn]
    simp only [Body.cost, ManyPhase.cost, List.length_cons]
    omega
  | collectError =>
    rw [hspawn]
    simp only [Body.cost, ManyPhase.cost, List.length_cons]
    omega
  | collectStale =>
    rw [hspawn]
    simp only [Body.cost, ManyPhase.cost, List.length_cons]
    omega
  | fallBack =>
    rw [hspawn]
    simp only [Body.cost, ManyPhase.cost]
    omega
  | @interrupt p _ hp =>
    rw [hspawn]
    cases p with
    | reading => simp only [Body.cost, ManyPhase.cost]; omega
    | isolating => simp only [Body.cost, ManyPhase.cost]; omega
    | copying => simp only [Body.cost, ManyPhase.cost]; omega
    | fallback => simp only [Body.cost, ManyPhase.cost]; omega
    | _ => cases hp

omit [DecidableEq K] in
theorem restCost_le (l l' : OwnedLocals K V) (h : l'.unresolved.length ≤ l.unresolved.length)
    (sources : List (Source K)) : l'.restCost w sources ≤ l.restCost w sources :=
  ownedCost_mono _ w h

omit [DecidableEq K] in
/-- One more source to visit. -/
theorem restCost_cons (l : OwnedLocals K V) (source : Source K) (sources : List (Source K)) :
    l.restCost w (source :: sources) =
      l.restCost w sources + visitCost w l.unresolved.length := by
  simp only [OwnedLocals.restCost, ownedCost, List.length_cons, Nat.succ_mul]
  omega

theorem OwnedMove.cost {keys : List K} {l : OwnedLocals K V} {p : OwnedPhase K V}
    (hm : OwnedMove b s c keys l p e m)
    (hw : w = workCost b.sources.length width (width - c.ancestry.length)) :
    m.body.cost b.sources.length w + m.spawnCost b.sources.length width c.runtime + 1 ≤
      p.cost w l := by
  have hspawn : ∀ shared body, (Step.mk shared body none : Step K V).spawnCost b.sources.length
      width c.runtime = 0 := fun _ _ => rfl
  have hfive : 5 ≤ w := by
    rw [hw]
    exact five_le_workCost _ _ _
  have hvisit : (Builder.visit (s.runtime c.runtime) l).unresolved.length ≤ l.unresolved.length :=
    List.length_filter_le _ _
  have hconsider : ∀ source : Source K, (Builder.consider source
      (Builder.visit (s.runtime c.runtime) l) (consideredKeys (s.runtime c.runtime) source
        (Builder.visit (s.runtime c.runtime) l))).unresolved.length ≤ l.unresolved.length := by
    intro source
    rw [unresolved_consider]
    exact hvisit
  cases hm with
  | exhausted =>
    rw [hspawn]
    simp only [Body.cost, OwnedPhase.cost, OwnedLocals.restCost, ownedCost]
    omega
  | @settled source sources hu =>
    rw [hspawn]
    simp only [Body.cost, OwnedPhase.cost, restCost_cons, visitCost, List.length_nil]
    omega
  | @skip source sources l₁ hl =>
    subst hl
    have := restCost_le (w := w) l _ (hconsider source) sources
    rw [hspawn]
    simp only [Body.cost, OwnedPhase.cost, restCost_cons, visitCost]
    omega
  | @attempt source sources l₁ chosen hl hc =>
    subst hl
    have := restCost_le (w := w) l _ (hconsider source) sources
    have hchosen : chosen.length ≤ l.unresolved.length := by
      rw [hc]
      exact le_trans (List.length_filter_le _ _) (le_trans (List.length_filter_le _ _) hvisit)
    have hitems := length_items source chosen
    have hunits : (source.items chosen).length * (w + 1) ≤ (l.unresolved.length + 1) * (w + 1) :=
      Nat.mul_le_mul_right _ (by omega)
    rw [hspawn]
    simp only [Body.cost, OwnedPhase.cost, restCost_cons, visitCost]
    omega
  | @dispatch source sources chosen item queue children =>
    have hunit : (Step.mk s.toShared (.resolveOwned keys l (.attempting source sources chosen queue
        (children ++ [s.frames.length]))) (some ⟨c, .work source item
          (if source.kind = .derived then .start else .calling .empty)⟩) : Step K V).spawnCost
            b.sources.length width c.runtime ≤ w := by
      refine spawnCost_le fun g hg _ => ?_
      cases hg
      show WorkPhase.cost (workCost _ _ _) (if _ then _ else _) ≤ w
      rw [← hw]
      split
      · exact le_rfl
      · show 1 ≤ w
        omega
    simp only [Body.cost, OwnedPhase.cost, List.length_cons, Nat.succ_mul]
    omega
  | gather =>
    rw [hspawn]
    simp only [Body.cost, OwnedPhase.cost, List.length_nil]
    omega
  | harvestMissing =>
    rw [hspawn]
    simp only [Body.cost, OwnedPhase.cost, List.length_cons]
    omega
  | refuse =>
    rw [hspawn]
    simp only [Body.cost, OwnedPhase.cost, List.length_cons, OwnedLocals.restCost, unresolved_fail]
    omega
  | keep =>
    rw [hspawn]
    simp only [Body.cost, OwnedPhase.cost, List.length_cons, OwnedLocals.restCost, unresolved_fail,
      unresolved_keepStale]
    omega
  | accept =>
    rw [hspawn]
    simp only [Body.cost, OwnedPhase.cost, List.length_cons, List.length_append, List.length_nil,
      Nat.zero_add, OwnedLocals.restCost]
    omega
  | publish =>
    rw [hspawn]
    simp only [Body.cost, OwnedPhase.cost, List.length_nil]
    omega
  | @harvested source sources attempts fresh =>
    have := restCost_le (w := w) l l.settle (List.length_filter_le _ _) sources
    rw [hspawn]
    simp only [Body.cost, OwnedPhase.cost]
    omega
  | @write sources fresh =>
    have : (Coalestra.superseded b fresh (b.setMany s.cache fresh).1).length ≤ fresh.length :=
      List.length_filterMap_le _ _
    rw [hspawn]
    simp only [Body.cost, OwnedPhase.cost]
    omega
  | wrote =>
    rw [hspawn]
    simp only [Body.cost, OwnedPhase.cost]
    omega
  | @superseded sources =>
    have := restCost_le (w := w) l l.settle (List.length_filter_le _ _) sources
    rw [hspawn]
    simp only [Body.cost, OwnedPhase.cost]
    omega
  | supersede =>
    rw [hspawn]
    simp only [Body.cost, OwnedPhase.cost, List.length_cons]
    omega
  | installWinner =>
    rw [hspawn]
    simp only [Body.cost, OwnedPhase.cost, OwnedLocals.restCost]
    omega
  | finishStale =>
    rw [hspawn]
    simp only [Body.cost, OwnedPhase.cost, List.length_cons]
    omega
  | finishError =>
    rw [hspawn]
    simp only [Body.cost, OwnedPhase.cost, List.length_cons]
    omega
  | publishStale =>
    rw [hspawn]
    simp only [Body.cost, OwnedPhase.cost]
    omega
  | finished =>
    rw [hspawn]
    simp only [Body.cost, OwnedPhase.cost]
    omega
  | writeStale =>
    rw [hspawn]
    simp only [Body.cost, OwnedPhase.cost]
    omega
  | wroteStale =>
    rw [hspawn]
    simp only [Body.cost, OwnedPhase.cost]
    omega
  | @interrupt p _ hp =>
    rw [hspawn]
    cases p with
    | writing => simp only [Body.cost, OwnedPhase.cost]; omega
    | written => simp only [Body.cost, OwnedPhase.cost]; omega
    | copyingWinner => simp only [Body.cost, OwnedPhase.cost]; omega
    | staleWriting => simp only [Body.cost, OwnedPhase.cost]; omega
    | staleWritten => simp only [Body.cost, OwnedPhase.cost]; omega
    | _ => cases hp

/-- A derived unit of work that starts a nested resolution has room for one more key on its path. -/
def Roomy (width : ℕ) (c : Scope K) (source : Source K) (keys : List K) : Prop :=
  ∀ key rest declared, keys = key :: rest → source.dependencies key = .ok declared →
    Builder.cycleIn (c.ancestry ++ [key]) (Dict.fromKeys declared) = none →
    c.ancestry.length < width ∧ (Dict.fromKeys declared).length ≤ width

theorem WorkMove.cost {source : Source K} {keys : List K} {p : WorkPhase K V}
    (hm : WorkMove b s c source keys p e m)
    (hw : w = workCost b.sources.length width (width - c.ancestry.length))
    (hroom : p = .start → Roomy width c source keys) :
    m.body.cost b.sources.length w + m.spawnCost b.sources.length width c.runtime + 1 ≤
      p.cost w := by
  have hspawn : ∀ shared body, (Step.mk shared body none : Step K V).spawnCost b.sources.length
      width c.runtime = 0 := fun _ _ => rfl
  have hfive : 5 ≤ w := by
    rw [hw]
    exact five_le_workCost _ _ _
  cases hm with
  | @depend key rest declared hkeys hd hc =>
    obtain ⟨hlt, hlen⟩ := hroom rfl key rest declared hkeys hd hc
    -- One more key on the path: the cost unfolds once.
    obtain ⟨depth, hdepth⟩ := Nat.exists_eq_add_of_lt hlt
    have hchild : width - (c.ancestry ++ [key]).length = depth := by
      rw [List.length_append, List.length_singleton]
      omega
    have hself : w = 5 + manyCost b.sources.length (workCost b.sources.length width depth) width := by
      rw [hw, show width - c.ancestry.length = depth + 1 by omega, workCost]
    have hmany : manyCost b.sources.length (workCost b.sources.length width depth)
        (Dict.fromKeys declared).length ≤
          manyCost b.sources.length (workCost b.sources.length width depth) width :=
      manyCost_mono _ _ hlen
    simp only [Body.cost, WorkPhase.cost, Step.spawnCost, Option.elim_some, if_true, Frame.cost,
      ManyPhase.cost, hchild]
    omega
  | refuse => rw [hspawn]; simp only [Body.cost, WorkPhase.cost]; omega
  | cycle => rw [hspawn]; simp only [Body.cost, WorkPhase.cost]; omega
  | resolved => rw [hspawn]; simp only [Body.cost, WorkPhase.cost]; omega
  | unresolved => rw [hspawn]; simp only [Body.cost, WorkPhase.cost]; omega
  | childRaised => rw [hspawn]; simp only [Body.cost, WorkPhase.cost]; omega
  | isolated => rw [hspawn]; simp only [Body.cost, WorkPhase.cost]; omega
  | answerBatch => rw [hspawn]; simp only [Body.cost, WorkPhase.cost]; omega
  | answer => rw [hspawn]; simp only [Body.cost, WorkPhase.cost]; omega
  | interrupt => rw [hspawn]; simp only [Body.cost, WorkPhase.cost]; omega
  | fail => rw [hspawn]; simp only [Body.cost, WorkPhase.cost]; omega

theorem ProduceMove.cost {owned : List K}
    {settled : Dict K (Except (Error K) (ResolutionResult K V))} {p : ProducePhase K V}
    (hm : ProduceMove b s c owned settled p e m)
    (hw : w = workCost b.sources.length width (width - c.ancestry.length)) :
    m.body.cost b.sources.length w + m.spawnCost b.sources.length width c.runtime + 1 ≤
      p.cost b.sources.length w owned := by
  have hspawn : ∀ shared body, (Step.mk shared body none : Step K V).spawnCost b.sources.length
      width c.runtime = 0 := fun _ _ => rfl
  cases hm with
  | start =>
    simp only [Body.cost, ProducePhase.cost, produceCost, Step.spawnCost, Option.elim_some, if_true,
      Frame.cost, OwnedPhase.cost, OwnedLocals.restCost, OwnedLocals.new, ← hw]
    omega
  | produced =>
    rw [hspawn]
    simp only [Body.cost, ProducePhase.cost]
    omega
  | complete =>
    rw [hspawn]
    simp only [Body.cost, ProducePhase.cost, List.length_cons]
    omega
  | completed =>
    rw [hspawn]
    simp only [Body.cost, ProducePhase.cost, List.length_nil]
    omega

theorem RefreshMove.cost {key : K} {p : RefreshPhase K} (hm : RefreshMove s c key p e m)
    (hw : w = workCost b.sources.length width (width - c.ancestry.length)) :
    m.body.cost b.sources.length w + m.spawnCost b.sources.length width c.runtime + 1 ≤
      p.cost b.sources.length w := by
  have hspawn : ∀ shared body, (Step.mk shared body none : Step K V).spawnCost b.sources.length
      width c.runtime = 0 := fun _ _ => rfl
  cases hm with
  | reserve =>
    have hreserve : (Step.mk (s.reserve c [key]).2.1 (.refresh key (.joining (s.reserve c [key]).1))
        (s.reserve c [key]).2.2 : Step K V).spawnCost b.sources.length width c.runtime ≤
          produceCost b.sources.length w [key].length := by
      rw [hw]
      exact reserve_cost rfl
    rw [List.length_singleton] at hreserve
    simp only [Body.cost, RefreshPhase.cost]
    omega
  | joined => rw [hspawn]; simp only [Body.cost, RefreshPhase.cost]; omega
  | joinRaised => rw [hspawn]; simp only [Body.cost, RefreshPhase.cost]; omega

/-- A move spends at least one unit of the cost of its coroutine. -/
theorem Move.cost {body : Body K V} (hm : Move b s c body e m) (width : ℕ)
    (hr : c.runtime < s.runtimes.length)
    (hroom : ∀ source keys, body = .work source keys .start → Roomy width c source keys) :
    (Frame.mk c m.body).cost b.sources.length width +
        m.spawnCost b.sources.length width c.runtime + 1 ≤
      (Frame.mk c body).cost b.sources.length width := by
  unfold Frame.cost
  dsimp only
  generalize hw : workCost b.sources.length width (width - c.ancestry.length) = w
  cases hm with
  | many hm => exact hm.cost hr hw.symm
  | owned hm => exact hm.cost hw.symm
  | work hm => exact hm.cost hw.symm fun hp => hroom _ _ (by rw [hp])
  | produce hm => exact hm.cost hw.symm
  | refresh hm => exact hm.cost hw.symm

end
end Coalestra
