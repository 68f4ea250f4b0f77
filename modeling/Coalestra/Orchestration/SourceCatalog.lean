import Coalestra.Core.SourceTimeout
import Coalestra.Lib.Recency
import Coalestra.Orchestration.SourceChain

/-! # The source catalog

`SourceCatalog.__init__` checks every source before it orders them, and `supports` remembers what a
source answered. `SourceObject.Acceptable` says in one place what passes; the memo is compared with
asking the source each time. -/

namespace Coalestra
set_option autoImplicit false
set_option maxHeartbeats 250000

/-! ## Construction -/

/-- `if not ok: raise error`. -/
def ensure (ok : Bool) (error : ConfigError) : Except ConfigError Unit :=
  if ok then .ok () else .error error

theorem ensure_bind {α : Type} {ok : Bool} {error : ConfigError}
    {rest : Unit → Except ConfigError α} {a : α} :
    (ensure ok error >>= rest) = .ok a ↔ ok = true ∧ rest () = .ok a := by
  cases ok <;> simp [ensure, bind, Except.bind]

theorem optionalPositiveSeconds_bind {α : Type} {fieldName : String} {raw : Option RawSeconds}
    {rest : Option ℚ → Except ConfigError α} {a : α} :
    (optionalPositiveSeconds fieldName raw >>= rest) = .ok a ↔
      ∃ value, RawSeconds.Reads raw value ∧ rest value = .ok a := by
  cases h : optionalPositiveSeconds fieldName raw with
  | error e =>
    simp only [bind, Except.bind, reduceCtorEq, false_iff, not_exists, not_and]
    intro value hvalue
    rw [optionalPositiveSeconds_ok.mpr hvalue] at h
    cases h
  | ok value =>
    have hreads := optionalPositiveSeconds_ok.mp h
    constructor
    · intro hrest
      exact ⟨value, hreads, hrest⟩
    · rintro ⟨value', hvalue', hrest⟩
      rw [hreads.unique hvalue']
      exact hrest

namespace SourceObject
variable {K P : Type}

/-- `max_batch_size`, once it is known to be at least one. -/
def positiveSize (size : Option ℤ) : Option ℕ+ :=
  size.bind fun n => if h : 0 < n then some ⟨n.toNat, by omega⟩ else none

/-- `_source_kind`. -/
def kind (s : SourceObject K P) : SourceKind :=
  if s.dependencies.isSome && s.derive then .derived
  else if s.fetchMany then .batch (positiveSize s.maxBatchSize)
  else .single

def foreignPolicy (s : SourceObject K P) : Bool :=
  match s.resiliencePolicy with
  | some .foreign => true
  | _ => false

/-- `_validate_source`. -/
def validateSource (s : SourceObject K P) : Except ConfigError Unit := do
  ensure (decide (strip s.name ≠ "")) (.valueError "source name cannot be empty")
  ensure s.supports.isSome (.typeError ("source " ++ s.name ++ " must define supports()"))
  let _ ← optionalPositiveSeconds ("source " ++ s.name ++ " timeout_seconds") s.timeoutSeconds
  let _ ← optionalPositiveSeconds ("source " ++ s.name ++ " queue_timeout_seconds")
    s.queueTimeoutSeconds
  ensure (s.maxConcurrency.all fun n => decide (1 ≤ n))
    (.valueError ("source " ++ s.name ++ " max_concurrency must be at least 1"))
  ensure (s.maxBatchSize.all fun n => decide (1 ≤ n))
    (.valueError ("source " ++ s.name ++ " max_batch_size must be at least 1"))
  ensure (!s.foreignPolicy) (.typeError
    ("source " ++ s.name ++ " resilience_policy must be SourceResiliencePolicy or None"))
  ensure (decide (s.kind ≠ .single) || s.fetch) (.typeError
    ("source " ++ s.name ++ " must define fetch(), fetch_many(), or dependencies()+derive()"))

/-- One turn of the loop over the given sources. -/
def register (s : SourceObject K P) (requireTimeoutDeclarations allowUnsafeBlockingSources : Bool) :
    Except ConfigError SourceTimeoutGuarantee := do
  s.validateSource
  let guarantee ← s.inspectSourceTimeoutGuarantee
  ensure (!(requireTimeoutDeclarations && !guarantee.declarationPresent)) (.valueError
    ("source " ++ s.name ++ " must explicitly declare blocking_io, " ++
      "blocking_io_offloaded, and transport_timeout_seconds"))
  ensure (!(guarantee.blockingIo && decide (guarantee.status ≠ .isProtected) &&
    !allowUnsafeBlockingSources)) (.valueError
      ("source " ++ s.name ++ " has unsafe blocking I/O timeout configuration: " ++
        guarantee.status.value))
  .ok guarantee

/-- What the builder reads of an accepted source. -/
def toSource (s : SourceObject K P) : Source K where
  name := s.name
  priority := s.priority
  kind := s.kind
  supports := s.supports.getD fun _ => .ok false
  dependencies := s.dependencies.getD fun _ => .ok []

end SourceObject

def registerAll {K P : Type} (requireTimeoutDeclarations allowUnsafeBlockingSources : Bool) :
    List (SourceObject K P) → Except ConfigError (List SourceTimeoutGuarantee)
  | [] => .ok []
  | s :: rest => do
    let guarantee ← s.register requireTimeoutDeclarations allowUnsafeBlockingSources
    let guarantees ← registerAll requireTimeoutDeclarations allowUnsafeBlockingSources rest
    .ok (guarantee :: guarantees)

/-- `SourceCatalog`, with what its constructor establishes about the sources. -/
structure SourceCatalog (K P : Type) where
  sources : List (SourceObject K P)
  kinds : Dict String SourceKind
  timeoutGuarantees : Dict String SourceTimeoutGuarantee
  cacheSupports : Bool
  supportCacheMaxEntries : Option ℤ
  names : (sources.map SourceObject.name).Nodup
  sorted : sources.Pairwise fun a b => b.priority ≤ a.priority
  bounded : ∀ n ∈ supportCacheMaxEntries, 1 ≤ n

namespace SourceCatalog
variable {K P : Type}

/-- `sorted(source_list, key=priority, reverse=True)`: ties keep the order given. -/
def order (given : List (SourceObject K P)) : List (SourceObject K P) :=
  given.mergeSort fun a b => decide (b.priority ≤ a.priority)

theorem order_perm (given : List (SourceObject K P)) : (order given).Perm given :=
  List.mergeSort_perm _ _

theorem order_sorted (given : List (SourceObject K P)) :
    (order given).Pairwise fun a b => b.priority ≤ a.priority := by
  have h : (order given).Pairwise fun a b => decide (b.priority ≤ a.priority) = true :=
    List.pairwise_mergeSort (fun a b c hab hbc => by simp at hab hbc ⊢; omega)
      (fun a b => by simp; omega) given
  exact h.imp fun hab => by simpa using hab

/-- Sources of one priority stand in the order given. -/
theorem order_stable (given : List (SourceObject K P)) (priority : ℤ) :
    ((order given).filter fun s => decide (s.priority = priority)) =
      given.filter fun s => decide (s.priority = priority) := by
  have hsub : (given.filter fun s => decide (s.priority = priority)).Sublist (order given) := by
    refine List.sublist_mergeSort (fun a b c hab hbc => by simp at hab hbc ⊢; omega)
      (fun a b => by simp; omega) ?_ List.filter_sublist
    refine List.pairwise_of_forall_mem_list fun a ha b hb => ?_
    have hpa : a.priority = priority := by simpa using (List.mem_filter.mp ha).2
    have hpb : b.priority = priority := by simpa using (List.mem_filter.mp hb).2
    simp [hpa, hpb]
  have hkept := hsub.filter fun s => decide (s.priority = priority)
  simp only [List.filter_filter, Bool.and_self] at hkept
  exact (hkept.eq_of_length ((order_perm given).filter _).length_eq.symm).symm

/-- `SourceCatalog.__init__`. -/
def new (given : List (SourceObject K P)) (cacheSupports : Bool)
    (supportCacheMaxEntries : Option ℤ)
    (requireTimeoutDeclarations allowUnsafeBlockingSources : Bool) :
    Except ConfigError (SourceCatalog K P) :=
  if given.isEmpty then .error (.valueError "at least one source is required")
  else if hbound : ∀ n ∈ supportCacheMaxEntries, 1 ≤ n then
    if hnames : (given.map SourceObject.name).Nodup then do
      let guarantees ← registerAll requireTimeoutDeclarations allowUnsafeBlockingSources given
      .ok {
        sources := order given
        kinds := .comprehend ((order given).map SourceObject.name) fun name =>
          (given.find? fun s => decide (s.name = name)).map SourceObject.kind
        timeoutGuarantees := .comprehend ((order given).map SourceObject.name) fun name =>
          guarantees.find? fun g => decide (g.source = name)
        cacheSupports
        supportCacheMaxEntries
        names := ((order_perm given).map _).nodup_iff.mpr hnames
        sorted := order_sorted given
        bounded := hbound }
    else .error (.valueError "source names must be unique")
  else .error (.valueError "source_support_cache_max_entries must be at least 1 or None")

end SourceCatalog

/-! ## What is accepted -/

namespace SourceObject
variable {K P : Type}

/-- A source that can be called: named, typed, with bounds of at least one. -/
structure WellFormed (s : SourceObject K P) : Prop where
  name : strip s.name ≠ ""
  supports : s.supports.isSome = true
  timeout : ∃ value, RawSeconds.Reads s.timeoutSeconds value
  queueTimeout : ∃ value, RawSeconds.Reads s.queueTimeoutSeconds value
  concurrency : ∀ n ∈ s.maxConcurrency, 1 ≤ n
  batchSize : ∀ n ∈ s.maxBatchSize, 1 ≤ n
  policy : s.foreignPolicy = false
  callable : s.kind = .single → s.fetch = true

theorem all_positive {size : Option ℤ} :
    (size.all fun n => decide (1 ≤ n)) = true ↔ ∀ n ∈ size, 1 ≤ n := by
  cases size <;> simp

theorem validateSource_ok (s : SourceObject K P) :
    s.validateSource = .ok () ↔ s.WellFormed := by
  have hlast : ∀ (ok : Bool) (error : ConfigError), ensure ok error = .ok () ↔ ok = true := by
    intro ok error
    cases ok <;> simp [ensure]
  unfold validateSource
  simp only [ensure_bind, optionalPositiveSeconds_bind, hlast, all_positive]
  constructor
  · rintro ⟨hname, hsupports, t, ht, q, hq, hc, hb, hp, hcall⟩
    refine ⟨by simpa using hname, hsupports, ⟨t, ht⟩, ⟨q, hq⟩, hc, hb, by simpa using hp, ?_⟩
    intro hkind
    simpa [hkind] using hcall
  · rintro ⟨hname, hsupports, ⟨t, ht⟩, ⟨q, hq⟩, hc, hb, hp, hcall⟩
    refine ⟨by simpa using hname, hsupports, t, ht, q, hq, hc, hb, by simpa using hp, ?_⟩
    by_cases hkind : s.kind = .single
    · simp [hcall hkind]
    · simp [hkind]

/-- What the constructor asks of each source. -/
structure Acceptable (s : SourceObject K P)
    (requireTimeoutDeclarations allowUnsafeBlockingSources : Bool) : Prop
    extends s.WellFormed where
  declares : ∃ source transport, s.Declares source transport
  declared : requireTimeoutDeclarations = true → s.blockingIo ≠ none
  safe : s.blockingIo = some (.flag true) → allowUnsafeBlockingSources = true ∨ s.Protected

theorem register_ok {s : SourceObject K P} {require allow : Bool} {g : SourceTimeoutGuarantee}
    (h : s.register require allow = .ok g) :
    s.Acceptable require allow ∧ s.inspectSourceTimeoutGuarantee = .ok g := by
  unfold register at h
  cases hvalid : s.validateSource with
  | error e =>
    rw [hvalid] at h
    cases h
  | ok u =>
    rw [hvalid] at h
    cases hinspect : s.inspectSourceTimeoutGuarantee with
    | error e =>
      rw [hinspect] at h
      cases h
    | ok g' =>
      rw [hinspect] at h
      change (ensure _ _ >>= fun _ => ensure _ _ >>= fun _ => Except.ok g') = Except.ok g at h
      rw [ensure_bind, ensure_bind, Except.ok.injEq] at h
      obtain ⟨hdeclared, hsafe, rfl⟩ := h
      obtain ⟨hdeclares, -, hpresent, hblocking, hprotected⟩ := inspect_ok hinspect
      refine ⟨⟨(validateSource_ok s).mp hvalid, ⟨_, _, hdeclares⟩, ?_, ?_⟩, rfl⟩
      · rintro rfl hnone
        simp [hpresent, hnone] at hdeclared
      · intro hio
        by_cases hp : g'.status = .isProtected
        · exact .inr (hprotected.mp hp)
        · simp [hblocking.mpr hio, hp] at hsafe
          exact .inl hsafe

theorem register_of_acceptable {s : SourceObject K P} {require allow : Bool}
    (h : s.Acceptable require allow) : ∃ g, s.register require allow = .ok g := by
  obtain ⟨source, transport, hdeclares⟩ := h.declares
  obtain ⟨g, hg⟩ := inspect_of_declares hdeclares
  obtain ⟨-, -, hpresent, hblocking, hprotected⟩ := inspect_ok hg
  refine ⟨g, ?_⟩
  unfold register
  rw [(validateSource_ok s).mpr h.toWellFormed, hg]
  change (ensure _ _ >>= fun _ => ensure _ _ >>= fun _ => Except.ok g) = Except.ok g
  rw [ensure_bind, ensure_bind]
  refine ⟨?_, ?_, rfl⟩
  · cases hr : require with
    | false => rfl
    | true =>
      have hsome : s.blockingIo.isSome = true := Option.isSome_iff_ne_none.mpr (h.declared hr)
      simp [hpresent, hsome]
  · cases hb : g.blockingIo with
    | false => rfl
    | true =>
      rcases h.safe (hblocking.mp hb) with hallow | hp
      · simp [hallow]
      · simp [hprotected.mpr hp]

end SourceObject

theorem registerAll_ok {K P : Type} {require allow : Bool} :
    ∀ {given : List (SourceObject K P)} {guarantees : List SourceTimeoutGuarantee},
      registerAll require allow given = .ok guarantees →
        (∀ s ∈ given, s.Acceptable require allow) ∧
        List.Forall₂ (fun s g => s.inspectSourceTimeoutGuarantee = .ok g) given guarantees
  | [], guarantees, h => by
      cases h
      exact ⟨by simp, .nil⟩
  | s :: rest, guarantees, h => by
      rw [registerAll] at h
      cases hs : s.register require allow with
      | error e =>
        rw [hs] at h
        cases h
      | ok g =>
        rw [hs] at h
        cases hrest : registerAll require allow rest with
        | error e =>
          rw [hrest] at h
          cases h
        | ok gs =>
          rw [hrest] at h
          cases h
          obtain ⟨hacc, hinspect⟩ := SourceObject.register_ok hs
          obtain ⟨hall, hforall⟩ := registerAll_ok hrest
          refine ⟨fun t ht => ?_, .cons hinspect hforall⟩
          rcases List.mem_cons.mp ht with rfl | ht
          · exact hacc
          · exact hall t ht

theorem registerAll_of_acceptable {K P : Type} {require allow : Bool} :
    ∀ {given : List (SourceObject K P)}, (∀ s ∈ given, s.Acceptable require allow) →
      ∃ guarantees, registerAll require allow given = .ok guarantees
  | [], _ => ⟨[], rfl⟩
  | s :: rest, h => by
      obtain ⟨g, hg⟩ := SourceObject.register_of_acceptable (h s List.mem_cons_self)
      obtain ⟨gs, hgs⟩ := registerAll_of_acceptable fun t ht => h t (List.mem_cons_of_mem _ ht)
      exact ⟨g :: gs, by rw [registerAll, hg, hgs]; rfl⟩

namespace SourceCatalog
variable {K P : Type}

theorem map_toSource_order (given : List (SourceObject K P)) :
    (order given).map SourceObject.toSource = catalogOrder (given.map SourceObject.toSource) :=
  List.map_mergeSort fun _ _ _ _ => rfl

theorem find?_inspected : ∀ {given : List (SourceObject K P)}
    {guarantees : List SourceTimeoutGuarantee},
    List.Forall₂ (fun s g => s.inspectSourceTimeoutGuarantee = .ok g) given guarantees →
    (given.map SourceObject.name).Nodup → ∀ s ∈ given,
      ∃ g, (guarantees.find? fun g => decide (g.source = s.name)) = some g ∧
        s.inspectSourceTimeoutGuarantee = .ok g
  | _, _, .nil, _, s, hs => by simp at hs
  | t :: given, g :: guarantees, .cons hg hrest, hnames, s, hs => by
      obtain ⟨hnew, hnames⟩ := List.nodup_cons.mp hnames
      have hname := (SourceObject.inspect_ok hg).2.1
      rcases List.mem_cons.mp hs with rfl | hs
      · exact ⟨g, by simp [hname], hg⟩
      · have hne : ¬ g.source = s.name := by
          rw [hname]
          intro e
          exact hnew (e ▸ List.mem_map_of_mem hs)
        obtain ⟨g', hfind, hinspect⟩ := find?_inspected hrest hnames s hs
        exact ⟨g', by simp [hne, hfind], hinspect⟩

/-- What the constructor returns. -/
theorem new_ok {given : List (SourceObject K P)} {cacheSupports : Bool} {maxEntries : Option ℤ}
    {require allow : Bool} {c : SourceCatalog K P}
    (h : new given cacheSupports maxEntries require allow = .ok c) :
    (given ≠ [] ∧ (∀ n ∈ maxEntries, 1 ≤ n) ∧ (given.map SourceObject.name).Nodup ∧
      ∀ s ∈ given, s.Acceptable require allow) ∧
    c.sources = order given ∧ c.cacheSupports = cacheSupports ∧
    c.supportCacheMaxEntries = maxEntries ∧
    ∀ s ∈ given, c.kinds.get? s.name = some s.kind ∧
      ∃ g, c.timeoutGuarantees.get? s.name = some g ∧ s.inspectSourceTimeoutGuarantee = .ok g := by
  unfold new at h
  split at h
  · cases h
  · rename_i hempty
    split at h
    · rename_i hbound
      split at h
      · rename_i hnames
        cases hall : registerAll require allow given with
        | error e =>
          rw [hall] at h
          cases h
        | ok guarantees =>
          rw [hall] at h
          cases h
          obtain ⟨hacc, hinspected⟩ := registerAll_ok hall
          refine ⟨⟨by simpa using hempty, hbound, hnames, hacc⟩, rfl, rfl, rfl, fun s hs => ?_⟩
          have hmem : s.name ∈ (order given).map SourceObject.name :=
            List.mem_map_of_mem ((order_perm given).mem_iff.mpr hs)
          obtain ⟨g, hfind, hg⟩ := find?_inspected hinspected hnames s hs
          refine ⟨?_, g, by rw [Dict.get?_comprehend, if_pos hmem, hfind], hg⟩
          rw [Dict.get?_comprehend, if_pos hmem]
          have hfirst : (given.find? fun t => decide (t.name = s.name)) = some s := by
            cases hf : given.find? fun t => decide (t.name = s.name) with
            | none => exact absurd (List.find?_eq_none.mp hf s hs) (by simp)
            | some t =>
              have hname : t.name = s.name := by simpa using List.find?_some hf
              rw [List.inj_on_of_nodup_map hnames (List.mem_of_find?_eq_some hf) hs hname]
          rw [hfirst, Option.map_some]
      · cases h
    · cases h

/-- The constructor accepts exactly the sources that are acceptable one by one, in any order. What
it builds is what the acquisition loop runs over: the sources in falling priority with ties in the
order given, and under each name the source's own kind and a guarantee that says `protected` of the
protected ones only. -/
theorem catalog_accepts_iff (given : List (SourceObject K P)) (cacheSupports : Bool)
    (maxEntries : Option ℤ) (require allow : Bool) :
    ((∃ c, new given cacheSupports maxEntries require allow = .ok c) ↔
      given ≠ [] ∧ (∀ n ∈ maxEntries, 1 ≤ n) ∧ (given.map SourceObject.name).Nodup ∧
        ∀ s ∈ given, s.Acceptable require allow) ∧
    ∀ c, new given cacheSupports maxEntries require allow = .ok c →
      c.sources.Perm given ∧
      c.sources.map SourceObject.toSource = catalogOrder (given.map SourceObject.toSource) ∧
      (∀ priority, (c.sources.filter fun s => decide (s.priority = priority)) =
        given.filter fun s => decide (s.priority = priority)) ∧
      ∀ s ∈ c.sources, c.kinds.get? s.name = some s.kind ∧
        ∃ g, c.timeoutGuarantees.get? s.name = some g ∧
          (g.status = .isProtected ↔ s.Protected) ∧
          (g.blockingIo = true → g.status = .isProtected ∨ allow = true) := by
  refine ⟨⟨fun ⟨c, hc⟩ => (new_ok hc).1, ?_⟩, fun c hc => ?_⟩
  · rintro ⟨hne, hbound, hnames, hacc⟩
    obtain ⟨guarantees, hall⟩ := registerAll_of_acceptable hacc
    unfold new
    rw [if_neg (by simpa using hne), dif_pos hbound, dif_pos hnames, hall]
    exact ⟨_, rfl⟩
  · obtain ⟨⟨-, -, -, hacc⟩, hsources, -, -, hentries⟩ := new_ok hc
    rw [hsources]
    refine ⟨order_perm given, map_toSource_order given, order_stable given, fun s hs => ?_⟩
    have hgiven := (order_perm given).mem_iff.mp hs
    obtain ⟨hkind, g, hg, hinspect⟩ := hentries s hgiven
    obtain ⟨-, -, -, hblocking, hprotected⟩ := SourceObject.inspect_ok hinspect
    refine ⟨hkind, g, hg, hprotected, fun hb => ?_⟩
    exact ((hacc s hgiven).safe (hblocking.mp hb)).symm.imp_left hprotected.mpr

end SourceCatalog

/-! ## Support decisions -/

structure SupportCounts where
  hits : ℕ
  misses : ℕ
  deriving DecidableEq, Repr

/-- `support_cache`, with the counters of every collector. -/
structure SupportMemo (K : Type) [DecidableEq K] where
  supportCache : Dict (String × K) Bool
  diagnostics : ℕ → SupportCounts

/-- A call of `supports`, with what `source.supports(key)` would answer to it. -/
structure SupportAsk (K P : Type) where
  source : SourceObject K P
  key : K
  collector : ℕ
  answer : Except Fault Bool

def SupportAsk.pair {K P : Type} (a : SupportAsk K P) : String × K := (a.source.name, a.key)

inductive SupportLabel (K P : Type)
  | ask (a : SupportAsk K P)
  | clear

/-- A call on behalf of this collector. -/
def SupportLabel.counts {K P : Type} (d : ℕ) : SupportLabel K P → Bool
  | ask a => decide (a.collector = d)
  | clear => false

def SupportMemo.new {K : Type} [DecidableEq K] : SupportMemo K := ⟨.empty, fun _ => ⟨0, 0⟩⟩

namespace SourceCatalog
variable {K P : Type} [DecidableEq K]

def limit (c : SourceCatalog K P) : Option ℕ := c.supportCacheMaxEntries.map Int.toNat

def cacheable (c : SourceCatalog K P) (a : SupportAsk K P) : Bool :=
  c.cacheSupports && a.source.cacheSupports

/-- `supports`; a call that raises is counted and not remembered. -/
def supports (c : SourceCatalog K P) (m : SupportMemo K) (a : SupportAsk K P) :
    Except Fault Bool × SupportMemo K :=
  let counts := m.diagnostics a.collector
  match if c.cacheable a then m.supportCache.get? a.pair else none with
  | some supported => (.ok supported, {
      supportCache := m.supportCache.moveToEnd a.pair
      diagnostics := Function.update m.diagnostics a.collector
        { counts with hits := counts.hits + 1 } })
  | none => (a.answer, {
      supportCache := match a.answer with
        | .ok supported =>
          if c.cacheable a then
            ((m.supportCache.set a.pair supported).moveToEnd a.pair).trim c.limit
          else m.supportCache
        | .error _ => m.supportCache
      diagnostics := Function.update m.diagnostics a.collector
        { counts with misses := counts.misses + 1 } })

/-- `clear_support_cache`. -/
def clearSupportCache (m : SupportMemo K) : SupportMemo K := { m with supportCache := .empty }

/-- Calls one after the other, with their answers. -/
def serve (c : SourceCatalog K P) :
    SupportMemo K → List (SupportLabel K P) → List (Except Fault Bool) × SupportMemo K
  | m, [] => ([], m)
  | m, .clear :: ls => c.serve (clearSupportCache m) ls
  | m, .ask a :: ls =>
    let reply := c.supports m a
    let rest := c.serve reply.2 ls
    (reply.1 :: rest.1, rest.2)

/-- The pairs decided since the memo was last cleared, the latest first. -/
def decided (c : SourceCatalog K P) : List (String × K) → List (SupportLabel K P) →
    List (String × K)
  | history, [] => history
  | _, .clear :: ls => c.decided [] ls
  | history, .ask a :: ls =>
    c.decided (if c.cacheable a && a.answer.toOption.isSome then a.pair :: history else history) ls

/-- The answers of the sources themselves. -/
def uncached : List (SupportLabel K P) → List (Except Fault Bool) :=
  List.filterMap fun
    | .ask a => some a.answer
    | .clear => none

/-- The memo holds the latest pairs, each with the source's own answer. -/
structure Remembers (c : SourceCatalog K P) (answers : String × K → Except Fault Bool)
    (history : List (String × K)) (m : SupportMemo K) : Prop where
  recalls : m.supportCache.Recalls c.limit history
  agrees : ∀ pair supported, m.supportCache.get? pair = some supported →
    answers pair = .ok supported

omit [DecidableEq K] in
theorem limit_ne_zero (c : SourceCatalog K P) : c.limit ≠ some 0 := by
  rw [limit]
  cases h : c.supportCacheMaxEntries with
  | none => simp
  | some n =>
    have := c.bounded n (by simp [h])
    simp
    omega

theorem keys_set_moveToEnd {L V : Type} [DecidableEq L] {d : Dict L V} {k : L} (h : k ∉ d.keys)
    (v : V) : ((d.set k v).moveToEnd k).keys = d.keys ++ [k] := by
  have hmem : k ∈ (d.set k v).keys := Dict.mem_keys_set.mpr (.inl rfl)
  rw [Dict.keys_moveToEnd hmem, Dict.keys_set_new h, List.filter_append, filter_ne_of_notMem h]
  simp

/-- One call answers as the source does, and is a hit exactly within the window. -/
theorem Remembers.supports {c : SourceCatalog K P} {answers : String × K → Except Fault Bool}
    {history : List (String × K)} {m : SupportMemo K} (h : c.Remembers answers history m)
    (a : SupportAsk K P) (ha : a.answer = answers a.pair) :
    (c.supports m a).1 = a.answer ∧
    c.Remembers answers (if c.cacheable a && a.answer.toOption.isSome then a.pair :: history
      else history) (c.supports m a).2 ∧
    (c.supports m a).2.diagnostics = Function.update m.diagnostics a.collector
      (if c.cacheable a && decide (a.pair ∈ latest c.limit history) then
        { m.diagnostics a.collector with hits := (m.diagnostics a.collector).hits + 1 }
      else
        { m.diagnostics a.collector with misses := (m.diagnostics a.collector).misses + 1 }) := by
  have hmem := h.recalls.mem_keys (k := a.pair)
  cases hc : c.cacheable a with
  | false =>
    refine ⟨by simp [SourceCatalog.supports, hc], ?_, by simp [SourceCatalog.supports, hc]⟩
    have hsame : (c.supports m a).2.supportCache = m.supportCache := by
      cases hans : a.answer <;> simp [SourceCatalog.supports, hc, hans]
    exact ⟨by simpa [hsame] using h.recalls, by simpa [hsame] using h.agrees⟩
  | true =>
    cases hget : m.supportCache.get? a.pair with
    | some supported =>
      have hkey := Dict.mem_keys_of_get? hget
      have hin := hmem.mp hkey
      have hans : a.answer = .ok supported := ha.trans (h.agrees a.pair supported hget)
      refine ⟨by simp [SourceCatalog.supports, hc, hget, hans], ?_,
        by simp [SourceCatalog.supports, hc, hget, hin]⟩
      have hcache : (c.supports m a).2.supportCache = m.supportCache.moveToEnd a.pair := by
        simp [SourceCatalog.supports, hc, hget]
      refine ⟨?_, ?_⟩
      · rw [hcache, hans]
        exact h.recalls.touch hkey
      · intro pair b hb
        rw [hcache, Dict.get?_moveToEnd] at hb
        exact h.agrees pair b hb
    | none =>
      have hkey : a.pair ∉ m.supportCache.keys := Dict.get?_eq_none.mp hget
      have hout : a.pair ∉ latest c.limit history := fun hm => hkey (hmem.mpr hm)
      refine ⟨by simp [SourceCatalog.supports, hc, hget], ?_,
        by simp [SourceCatalog.supports, hc, hget, hout]⟩
      cases hans : a.answer with
      | error fault =>
        have hcache : (c.supports m a).2.supportCache = m.supportCache := by
          simp [SourceCatalog.supports, hc, hget, hans]
        exact ⟨by simpa [hcache, Except.toOption] using h.recalls, by simpa [hcache] using h.agrees⟩
      | ok supported =>
        have hcache : (c.supports m a).2.supportCache =
            ((m.supportCache.set a.pair supported).moveToEnd a.pair).trim c.limit := by
          simp [SourceCatalog.supports, hc, hget, hans]
        refine ⟨?_, ?_⟩
        · rw [hcache]
          exact h.recalls.insert c.limit_ne_zero hkey (keys_set_moveToEnd hkey supported)
        · intro pair b hb
          rw [hcache] at hb
          have hb := Dict.get?_trim hb
          rw [Dict.get?_moveToEnd] at hb
          rcases Dict.get?_set_cases hb with ⟨rfl, rfl⟩ | hold
          · rw [← ha, hans]
          · exact h.agrees pair b hold

omit [DecidableEq K] in
theorem clear_asks {ls : List (SupportLabel K P)} {p : SupportAsk K P → Prop}
    {l : SupportLabel K P} (h : ∀ a, SupportLabel.ask a ∈ l :: ls → p a) :
    ∀ a, SupportLabel.ask a ∈ ls → p a :=
  fun a ha => h a (List.mem_cons_of_mem _ ha)

theorem Remembers.serve {c : SourceCatalog K P} {answers : String × K → Except Fault Bool} :
    ∀ {ls : List (SupportLabel K P)} {history : List (String × K)} {m : SupportMemo K},
      c.Remembers answers history m → (∀ a, .ask a ∈ ls → a.answer = answers a.pair) →
      (c.serve m ls).1 = uncached ls ∧
      c.Remembers answers (c.decided history ls) (c.serve m ls).2 ∧
      ∀ d, ((c.serve m ls).2.diagnostics d).hits + ((c.serve m ls).2.diagnostics d).misses =
        (m.diagnostics d).hits + (m.diagnostics d).misses + ls.countP (SupportLabel.counts d)
  | [], history, m, h, _ => ⟨rfl, h, fun d => by simp [SourceCatalog.serve]⟩
  | .clear :: ls, history, m, h, hls => by
      have hempty : c.Remembers answers [] (clearSupportCache m) :=
        ⟨.empty c.limit, fun pair b hb => by simp [clearSupportCache] at hb⟩
      obtain ⟨hreplies, hrem, hcounts⟩ := hempty.serve (clear_asks hls)
      exact ⟨hreplies, hrem, fun d => by
        rw [SourceCatalog.serve, hcounts]
        simp [clearSupportCache, SupportLabel.counts]⟩
  | .ask a :: ls, history, m, h, hls => by
      obtain ⟨hreply, hnext, hdiagnostics⟩ := h.supports a (hls a List.mem_cons_self)
      obtain ⟨hreplies, hrem, hcounts⟩ := hnext.serve (clear_asks hls)
      refine ⟨?_, hrem, fun d => ?_⟩
      · rw [SourceCatalog.serve, hreply, hreplies]
        rfl
      · rw [SourceCatalog.serve, hcounts, hdiagnostics, List.countP_cons]
        by_cases hd : a.collector = d
        · subst hd
          rw [Function.update_self]
          split <;> simp [SupportLabel.counts] <;> omega
        · have hd' : d ≠ a.collector := fun e => hd e.symm
          rw [Function.update_of_ne hd']
          simp [SupportLabel.counts, hd]

/-- As long as a source answers alike for a key, the memo is invisible: `supports` answers as the
source does, whatever was asked, forgotten or cleared before. The memo holds the latest decisions
and no others, a call is a hit exactly when its pair is among them, and every call counts once. -/
theorem support_memo_transparent (c : SourceCatalog K P)
    (answers : String × K → Except Fault Bool) (ls : List (SupportLabel K P))
    (h : ∀ a, .ask a ∈ ls → a.answer = answers a.pair) :
    (c.serve .new ls).1 = uncached ls ∧
    (c.serve .new ls).2.supportCache.keys.reverse =
      latest c.limit (c.decided [] ls) ∧
    (∀ d, ((c.serve .new ls).2.diagnostics d).hits +
        ((c.serve .new ls).2.diagnostics d).misses =
      ls.countP (SupportLabel.counts d)) ∧
    ∀ a : SupportAsk K P, a.answer = answers a.pair →
      (((c.supports (c.serve .new ls).2 a).2.diagnostics a.collector).hits =
        ((c.serve .new ls).2.diagnostics a.collector).hits +
          if c.cacheable a && decide (a.pair ∈ latest c.limit (c.decided [] ls))
            then 1 else 0) := by
  have hempty : c.Remembers answers [] SupportMemo.new :=
    ⟨.empty c.limit, fun pair b hb => by simp [SupportMemo.new] at hb⟩
  obtain ⟨hreplies, hrem, hcounts⟩ := hempty.serve h
  refine ⟨hreplies, hrem.recalls, fun d => by rw [hcounts]; simp [SupportMemo.new],
    fun a ha => ?_⟩
  rw [(hrem.supports a ha).2.2, Function.update_self]
  split <;> simp

/-- A source that supports the even keys. -/
def evenSource : SourceObject ℕ Unit where
  name := "even"
  priority := 0
  supports := some fun key => .ok (key % 2 == 0)
  dependencies := none
  fetch := true
  fetchMany := false
  derive := false
  timeoutSeconds := none
  queueTimeoutSeconds := none
  maxConcurrency := none
  maxBatchSize := none
  resiliencePolicy := none
  cacheSupports := true
  blockingIo := none
  blockingIoOffloaded := .flag false
  transportTimeoutSeconds := none

theorem one_entry : ∀ n ∈ (some 1 : Option ℤ), 1 ≤ n := by simp

/-- A catalog that remembers one decision. -/
def oneDecision : SourceCatalog ℕ Unit where
  sources := [evenSource]
  kinds := .empty
  timeoutGuarantees := .empty
  cacheSupports := true
  supportCacheMaxEntries := some 1
  names := List.nodup_singleton _
  sorted := List.pairwise_singleton _ _
  bounded := one_entry

def askEven (key : ℕ) : SupportLabel ℕ Unit := .ask ⟨evenSource, key, 0, .ok (key % 2 == 0)⟩

theorem support_memo_transparent_one :
    (oneDecision.serve .new [askEven 2, askEven 2, askEven 3]).2.supportCache.keys.reverse =
      latest (some 1) [("even", 3), ("even", 2), ("even", 2)] := by
  refine (support_memo_transparent oneDecision (fun pair => .ok (pair.2 % 2 == 0)) _ ?_).2.1
  intro a ha
  simp only [askEven, List.mem_cons, SupportLabel.ask.injEq, List.not_mem_nil, or_false] at ha
  rcases ha with rfl | rfl | rfl <;> rfl

end SourceCatalog
end Coalestra
