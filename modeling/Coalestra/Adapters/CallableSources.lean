import Mathlib.Data.List.TakeWhile
import Coalestra.Orchestration.SourceCatalog

/-! # Callable sources

The constructors of `CallableSource`, `CallableBatchSource` and `CallableDerivedSource` make the
same checks in the same order; only the batch source has a batch size. What they build is compared
with what the catalog asks of a source. -/

namespace Coalestra
set_option autoImplicit false
set_option maxHeartbeats 250000

/-- The arguments of the three constructors; `coroutine` tells whether the callable is a coroutine
function. `dependencies` is used by the derived source and `maxBatchSize` by the batch source. -/
structure CallableArguments (K P : Type) where
  name : String
  priority : ℤ
  supports : K → Except Fault Bool
  dependencies : K → Except Fault (List K)
  coroutine : Bool
  timeoutSeconds : Option RawSeconds
  queueTimeoutSeconds : Option RawSeconds
  maxConcurrency : Option ℤ
  maxBatchSize : Option ℤ
  resiliencePolicy : Option (RawPolicy P)
  cacheSupports : Bool
  runSyncInThread : RawFlag
  blockingIo : RawFlag
  transportTimeoutSeconds : Option RawSeconds

/-- `if not isinstance(value, bool): raise TypeError(message)`. -/
def RawFlag.boolean (message : String) : RawFlag → Except ConfigError Bool
  | flag value => .ok value
  | notABoolean => .error (.typeError message)

section
variable {K P : Type}

/-- What the three constructors have in common. -/
def CallableArguments.construct (a : CallableArguments K P) (maxBatchSize : Option ℤ) :
    Except ConfigError (SourceObject K P) := do
  ensure (decide (strip a.name ≠ "")) (.valueError "source name cannot be empty")
  let timeoutSeconds ← optionalPositiveSeconds "timeout_seconds" a.timeoutSeconds
  let queueTimeoutSeconds ← optionalPositiveSeconds "queue_timeout_seconds" a.queueTimeoutSeconds
  ensure (a.maxConcurrency.all fun n => decide (1 ≤ n))
    (.valueError "max_concurrency must be at least 1 or None")
  ensure (maxBatchSize.all fun n => decide (1 ≤ n))
    (.valueError "max_batch_size must be at least 1 or None")
  let runSyncInThread ← a.runSyncInThread.boolean "run_sync_in_thread must be a boolean"
  let blockingIo ← a.blockingIo.boolean "blocking_io must be a boolean"
  let transportTimeoutSeconds ←
    optionalPositiveSeconds "transport_timeout_seconds" a.transportTimeoutSeconds
  ensure (blockingIo || transportTimeoutSeconds.isNone)
    (.valueError "transport_timeout_seconds requires blocking_io=True")
  .ok {
    name := strip a.name
    priority := a.priority
    supports := some a.supports
    dependencies := none
    fetch := false
    fetchMany := false
    derive := false
    timeoutSeconds := timeoutSeconds.map .number
    queueTimeoutSeconds := (queueTimeoutSeconds.or timeoutSeconds).map .number
    maxConcurrency := a.maxConcurrency
    maxBatchSize
    resiliencePolicy := a.resiliencePolicy
    cacheSupports := a.cacheSupports
    blockingIo := some (.flag blockingIo)
    blockingIoOffloaded := .flag (runSyncInThread && !a.coroutine)
    transportTimeoutSeconds := transportTimeoutSeconds.map .number }

def CallableSource.new (a : CallableArguments K P) : Except ConfigError (SourceObject K P) :=
  (a.construct none).map fun s => { s with fetch := true }

def CallableBatchSource.new (a : CallableArguments K P) : Except ConfigError (SourceObject K P) :=
  (a.construct a.maxBatchSize).map fun s => { s with fetchMany := true }

/-- `dependencies` gives each declared key once. -/
def CallableDerivedSource.new [DecidableEq K] (a : CallableArguments K P) :
    Except ConfigError (SourceObject K P) :=
  (a.construct none).map fun s => { s with
    dependencies := some fun key => (a.dependencies key).map Dict.fromKeys
    derive := true }

/-! ## Names -/

theorem strip_toList (s : String) :
    (strip s).toList = ((s.toList.dropWhile isSpace).reverse.dropWhile isSpace).reverse := by
  rw [strip, String.toList_ofList]

theorem mem_dropWhile {α : Type} {p : α → Bool} {l : List α} {x : α} (hx : x ∈ l)
    (hp : p x = false) : x ∈ l.dropWhile p := by
  induction l with
  | nil => exact hx
  | cons a l ih =>
    rw [List.dropWhile_cons]
    split
    · rename_i ha
      rcases List.mem_cons.mp hx with rfl | hx
      · rw [hp] at ha
        cases ha
      · exact ih hx
    · exact hx

/-- Stripping keeps what is not whitespace. -/
theorem mem_strip {s : String} {c : Char} (hc : c ∈ s.toList) (hspace : isSpace c = false) :
    c ∈ (strip s).toList := by
  rw [strip_toList, List.mem_reverse]
  exact mem_dropWhile (List.mem_reverse.mpr (mem_dropWhile hc hspace)) hspace

theorem strip_ne_empty {s : String} :
    strip s ≠ "" ↔ ∃ c ∈ s.toList, isSpace c = false := by
  constructor
  · intro h
    by_contra hall
    push Not at hall
    apply h
    have hdrop : s.toList.dropWhile isSpace = [] :=
      List.dropWhile_eq_nil_iff.mpr fun c hc => by simpa using hall c hc
    rw [strip, hdrop]
    rfl
  · rintro ⟨c, hc, hspace⟩ hempty
    have hmem := mem_strip hc hspace
    rw [hempty] at hmem
    simp at hmem

theorem strip_strip_ne_empty {s : String} (h : strip s ≠ "") : strip (strip s) ≠ "" := by
  obtain ⟨c, hc, hspace⟩ := strip_ne_empty.mp h
  exact strip_ne_empty.mpr ⟨c, mem_strip hc hspace, hspace⟩

/-! ## What the catalog finds -/

theorem RawFlag.boolean_bind {α : Type} {message : String} {raw : RawFlag}
    {rest : Bool → Except ConfigError α} {x : α} :
    (raw.boolean message >>= rest) = .ok x ↔ ∃ b, raw = .flag b ∧ rest b = .ok x := by
  cases raw <;> simp [RawFlag.boolean, bind, Except.bind]

/-- A value that was read once is read again. -/
theorem RawSeconds.Reads.again {raw : Option RawSeconds} {value : Option ℚ}
    (h : RawSeconds.Reads raw value) : RawSeconds.Reads (value.map .number) value := by
  cases value with
  | none => trivial
  | some seconds => exact ⟨h.pos, rfl⟩

theorem RawSeconds.Reads.iff {raw : Option RawSeconds} {value x : Option ℚ}
    (h : RawSeconds.Reads raw value) : RawSeconds.Reads raw x ↔ x = value := by
  constructor
  · exact fun hx => hx.unique h
  · rintro rfl
    exact h

/-- What a construction establishes, besides the methods of the source. -/
structure CallableArguments.Built (a : CallableArguments K P) (s : SourceObject K P) : Prop where
  name : strip s.name ≠ ""
  supports : s.supports.isSome = true
  timeout : ∃ value, RawSeconds.Reads a.timeoutSeconds value ∧ s.timeoutSeconds = value.map .number
  queueTimeout : ∃ value, RawSeconds.Reads s.queueTimeoutSeconds value
  concurrency : ∀ n ∈ s.maxConcurrency, 1 ≤ n
  batchSize : ∀ n ∈ s.maxBatchSize, 1 ≤ n
  policy : s.resiliencePolicy = a.resiliencePolicy
  blockingIo : ∃ b, a.blockingIo = .flag b ∧ s.blockingIo = some (.flag b)
  offloaded : ∃ b, a.runSyncInThread = .flag b ∧ s.blockingIoOffloaded = .flag (b && !a.coroutine)
  transport : ∃ value, RawSeconds.Reads a.transportTimeoutSeconds value ∧
    s.transportTimeoutSeconds = value.map .number ∧
      (s.blockingIo = some (.flag false) → value = none)

theorem CallableArguments.construct_ok {a : CallableArguments K P} {size : Option ℤ}
    {s : SourceObject K P} (h : a.construct size = .ok s) : a.Built s := by
  unfold CallableArguments.construct at h
  simp only [ensure_bind, optionalPositiveSeconds_bind, RawFlag.boolean_bind,
    SourceObject.all_positive] at h
  obtain ⟨hname, timeout, htimeout, queue, hqueue, hconcurrency, hsize, sync, hsync, blocking,
    hblocking, transport, htransport, hrequires, h⟩ := h
  rw [Except.ok.injEq] at h
  subst h
  refine ⟨strip_strip_ne_empty (by simpa using hname), rfl, ⟨timeout, htimeout, rfl⟩, ?_,
    hconcurrency, hsize, rfl, ⟨blocking, hblocking, rfl⟩, ⟨sync, hsync, rfl⟩,
    ⟨transport, htransport, rfl, fun hfalse => ?_⟩⟩
  · cases queue with
    | none => exact ⟨timeout, htimeout.again⟩
    | some seconds => exact ⟨some seconds, hqueue.again⟩
  · simp only [Option.some.injEq, RawFlag.flag.injEq] at hfalse
    subst hfalse
    simpa using hrequires

/-- The contract that a blocking callable has to keep. -/
def CallableArguments.KeepsContract (a : CallableArguments K P) : Prop :=
  a.runSyncInThread = .flag true ∧ a.coroutine = false ∧
    ∃ transport, RawSeconds.Reads a.transportTimeoutSeconds (some transport) ∧
      ∀ timeout, RawSeconds.Reads a.timeoutSeconds (some timeout) → transport < timeout

theorem CallableArguments.Built.declares {a : CallableArguments K P} {s : SourceObject K P}
    (h : a.Built s) : ∃ source transport, s.Declares source transport := by
  obtain ⟨timeout, htimeout, hts⟩ := h.timeout
  obtain ⟨transport, htransport, htr, hnone⟩ := h.transport
  obtain ⟨blocking, -, hblocking⟩ := h.blockingIo
  obtain ⟨sync, -, hoff⟩ := h.offloaded
  refine ⟨timeout, transport, ?_, fun _ => ?_, fun hn => ?_, ?_, fun _ => ?_, hnone⟩
  · rw [hts]
    exact htimeout.again
  · rw [htr]
    exact htransport.again
  · rw [hblocking] at hn
    cases hn
  · simp [hblocking]
  · simp [hoff]

theorem CallableArguments.Built.protected_iff {a : CallableArguments K P} {s : SourceObject K P}
    (h : a.Built s) : s.Protected ↔ a.blockingIo = .flag true ∧ a.KeepsContract := by
  obtain ⟨timeout, htimeout, hts⟩ := h.timeout
  obtain ⟨transport, htransport, htr, -⟩ := h.transport
  obtain ⟨blocking, hab, hblocking⟩ := h.blockingIo
  obtain ⟨sync, has, hoff⟩ := h.offloaded
  rw [SourceObject.Protected, CallableArguments.KeepsContract, hab, has, hblocking, hoff, hts, htr]
  simp only [htimeout.iff, htimeout.again.iff, htransport.iff, htransport.again.iff,
    Option.some.injEq, RawFlag.flag.injEq, Bool.and_eq_true, Bool.not_eq_true', and_assoc]

/-- A built source with the methods of one of the three classes. -/
theorem CallableArguments.Built.acceptable_iff {a : CallableArguments K P} {s : SourceObject K P}
    (h : a.Built s) (hcallable : s.kind = .single → s.fetch = true) {require allow : Bool} :
    s.Acceptable require allow ↔ s.foreignPolicy = false ∧
      (a.blockingIo = .flag true → allow = true ∨ a.KeepsContract) := by
  obtain ⟨timeout, htimeout, hts⟩ := h.timeout
  obtain ⟨blocking, hab, hblocking⟩ := h.blockingIo
  constructor
  · intro hacc
    refine ⟨hacc.policy, fun hb => ?_⟩
    rw [hab, RawFlag.flag.injEq] at hb
    subst hb
    exact (hacc.safe hblocking).imp_right fun hp => (h.protected_iff.mp hp).2
  · rintro ⟨hpolicy, hsafe⟩
    refine ⟨⟨h.name, h.supports, ⟨timeout, by rw [hts]; exact htimeout.again⟩, h.queueTimeout,
      h.concurrency, h.batchSize, hpolicy, hcallable⟩, h.declares, fun _ => by simp [hblocking],
      fun hb => ?_⟩
    rw [hblocking, Option.some.injEq, RawFlag.flag.injEq] at hb
    subst hb
    exact (hsafe hab).imp_right fun hk => h.protected_iff.mpr ⟨hab, hk⟩

/-- The methods that the class adds do not matter. -/
theorem CallableArguments.Built.withMethods {a : CallableArguments K P} {s : SourceObject K P}
    (h : a.Built s) (dependencies : Option (K → Except Fault (List K)))
    (fetch fetchMany derive : Bool) :
    a.Built { s with dependencies, fetch, fetchMany, derive } :=
  ⟨h.name, h.supports, h.timeout, h.queueTimeout, h.concurrency, h.batchSize, h.policy,
    h.blockingIo, h.offloaded, h.transport⟩

theorem map_ok {α β : Type} {e : Except ConfigError α} {f : α → β} {b : β}
    (h : e.map f = .ok b) : ∃ a, e = .ok a ∧ f a = b := by
  cases e with
  | error error => cases h
  | ok a =>
    cases h
    exact ⟨a, rfl, rfl⟩

/-- What the three classes build passes the catalog, whatever it requires to be declared; only a
policy of another type, or a blocking callable that breaks its contract where this is not allowed,
is still refused. -/
theorem callable_sources_accepted [DecidableEq K] (a : CallableArguments K P)
    (s : SourceObject K P)
    (h : CallableSource.new a = .ok s ∨ CallableBatchSource.new a = .ok s ∨
      CallableDerivedSource.new a = .ok s) (require allow : Bool) :
    s.Acceptable require allow ↔ s.foreignPolicy = false ∧
      (a.blockingIo = .flag true → allow = true ∨ a.KeepsContract) := by
  rcases h with h | h | h
  · obtain ⟨base, hbase, rfl⟩ := map_ok h
    have hbuilt := CallableArguments.construct_ok hbase
    exact (hbuilt.withMethods base.dependencies true base.fetchMany base.derive).acceptable_iff
      fun _ => rfl
  · obtain ⟨base, hbase, rfl⟩ := map_ok h
    have hbuilt := CallableArguments.construct_ok hbase
    refine (hbuilt.withMethods base.dependencies base.fetch true base.derive).acceptable_iff
      fun hkind => ?_
    unfold SourceObject.kind at hkind
    split at hkind <;> cases hkind
  · obtain ⟨base, hbase, rfl⟩ := map_ok h
    have hbuilt := CallableArguments.construct_ok hbase
    refine (hbuilt.withMethods (some fun key => (a.dependencies key).map Dict.fromKeys) base.fetch
      base.fetchMany true).acceptable_iff fun hkind => ?_
    simp [SourceObject.kind] at hkind

/-- A callable that blocks in a thread for a second at most. -/
def blockingArguments : CallableArguments ℕ Unit where
  name := " feed "
  priority := 0
  supports := fun _ => .ok true
  dependencies := fun _ => .ok []
  coroutine := false
  timeoutSeconds := some (.number 2)
  queueTimeoutSeconds := none
  maxConcurrency := none
  maxBatchSize := none
  resiliencePolicy := none
  cacheSupports := true
  runSyncInThread := .flag true
  blockingIo := .flag true
  transportTimeoutSeconds := some (.number 1)

theorem callable_sources_accepted_blocking :
    ∃ s, CallableSource.new blockingArguments = .ok s ∧ s.Acceptable true false := by
  have hname : strip " feed " ≠ "" := strip_ne_empty.mpr ⟨'f', by simp, rfl⟩
  have hone : (0 : ℚ) < 1 := one_pos
  have htwo : (1 : ℚ) < 2 := one_lt_two
  have hbase : ∃ base, blockingArguments.construct none = .ok base := by
    unfold CallableArguments.construct
    simp only [ensure_bind, optionalPositiveSeconds_bind, RawFlag.boolean_bind]
    exact ⟨_, decide_eq_true hname, some 2, ⟨one_pos.trans htwo, rfl⟩, none, trivial, rfl, rfl,
      true, rfl, true, rfl, some 1, ⟨hone, rfl⟩, rfl, rfl⟩
  obtain ⟨base, hbase⟩ := hbase
  have hbuilds : ∃ s, CallableSource.new blockingArguments = .ok s :=
    ⟨_, by rw [CallableSource.new, hbase]; rfl⟩
  obtain ⟨s, hs⟩ := hbuilds
  refine ⟨s, hs, (callable_sources_accepted blockingArguments s (.inl hs) true false).mpr ?_⟩
  have hpolicy : s.resiliencePolicy = none := by
    obtain ⟨base, hbase, rfl⟩ := map_ok hs
    exact (CallableArguments.construct_ok hbase).policy
  refine ⟨by simp [SourceObject.foreignPolicy, hpolicy], fun _ => .inr ⟨rfl, rfl, 1, ?_, ?_⟩⟩
  · exact ⟨hone, rfl⟩
  · rintro timeout ⟨-, rfl⟩
    exact htwo

end
end Coalestra
