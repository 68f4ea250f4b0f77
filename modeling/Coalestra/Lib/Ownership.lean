import Coalestra.Lib.Runs
import Mathlib.Data.List.Nodup
import Mathlib.Logic.Function.Basic
import Mathlib.Tactic.Common

/-! # Objects that cross a boundary

Code inside a boundary and code outside share one heap. Code outside may change any object it can
reach, at any time. Inside, flows run side by side: each is a list of instructions over registers
that takes objects from outside, copies them, keeps references in shared places and hands objects
out. `checks` is a static check of one flow: what comes from outside is copied before it is kept,
and what goes outside is a copy that nothing inside refers to. When every flow passes the check, no
object is reachable from both sides, in any interleaving (`Sound.run`): a reference kept inside
always finds the content that was copied in, and so does every object at the time it is handed
out. -/

namespace Coalestra
set_option autoImplicit false
set_option maxHeartbeats 250000

/-! ## Flows -/

/-- A reference. `acceptance` numbers the copy from outside that its content goes back to. -/
structure Held where
  object : ℕ
  acceptance : Option ℕ
  deriving DecidableEq, Repr

/-- `accept` copies an object that came from outside, `copy` one from inside, and `hand` gives the
object in a register away. -/
inductive Instr (Place : Type)
  | take (x : ℕ)
  | accept (x y : ℕ)
  | load (p : Place) (x : ℕ)
  | copy (x y : ℕ)
  | save (x : ℕ) (p : Place)
  | hand (x : ℕ)

structure Flow (Place : Type) where
  rest : List (Instr Place)
  registers : ℕ → Option Held

/-- An object that was handed out, with its content at that time. -/
structure Delivery (V : Type) where
  held : Held
  content : V
  deriving DecidableEq, Repr

/-- `contents` holds the content of every object, `accepted` the content of every acceptance, and
`outside` the objects that code outside reaches. -/
structure Boundary (Place V : Type) where
  contents : List V
  accepted : List V
  outside : List ℕ
  places : Place → Option Held
  flows : List (Flow Place)
  deliveries : List (Delivery V)

inductive BoundaryLabel (F Place V : Type)
  | allocate (content : V)
  | mutate (object : ℕ) (content : V)
  | start (f : F)
  | turn (i object : ℕ)
  | abandon (i : ℕ)
  | forget (p : Place)

namespace Boundary
variable {F Place V : Type} [DecidableEq Place]

def new : Boundary Place V := ⟨[], [], [], fun _ => none, [], []⟩

/-- New objects, and new acceptances. -/
def grow (s : Boundary Place V) (contents accepted : List V) : Boundary Place V :=
  { s with contents := s.contents ++ contents, accepted := s.accepted ++ accepted }

def put (s : Boundary Place V) (p : Place) (ref : Option Held) : Boundary Place V :=
  { s with places := Function.update s.places p ref }

def handOut (s : Boundary Place V) (held : Held) (v : V) : Boundary Place V :=
  { s with outside := held.object :: s.outside, deliveries := s.deliveries ++ [⟨held, v⟩] }

/-- One instruction over the registers of its flow. A register that holds nothing, because a place
was empty, makes an instruction do nothing; `object` is the one that `take` finds outside. -/
def exec (s : Boundary Place V) (registers : ℕ → Option Held) (object : ℕ) :
    Instr Place → Option (Boundary Place V × (ℕ → Option Held))
  | .take x =>
    if object ∈ s.outside then some (s, Function.update registers x (some ⟨object, none⟩)) else none
  | .accept x y =>
    match registers x with
    | none => some (s, Function.update registers y none)
    | some held => (s.contents[held.object]?).map fun v =>
        (s.grow [v] [v], Function.update registers y
          (some ⟨s.contents.length, some s.accepted.length⟩))
  | .load p x => some (s, Function.update registers x (s.places p))
  | .copy x y =>
    match registers x with
    | none => some (s, Function.update registers y none)
    | some held => (s.contents[held.object]?).map fun v =>
        (s.grow [v] [], Function.update registers y (some ⟨s.contents.length, held.acceptance⟩))
  | .save x p =>
    match registers x with
    | none => some (s, registers)
    | some held => some (s.put p (some held), registers)
  | .hand x =>
    match registers x with
    | none => some (s, registers)
    | some held => (s.contents[held.object]?).map fun v => (s.handOut held v, registers)

def setFlow (s : Boundary Place V) (i : ℕ) (f : Flow Place) : Boundary Place V :=
  { s with flows := s.flows.set i f }

/-- A flow may be abandoned, and a place may lose its reference, at any time. -/
def step (program : F → List (Instr Place)) (s : Boundary Place V) :
    BoundaryLabel F Place V → Option (Boundary Place V)
  | .allocate v => some { s with
      contents := s.contents ++ [v]
      outside := s.contents.length :: s.outside }
  | .mutate object v =>
    if object ∈ s.outside then some { s with contents := s.contents.set object v } else none
  | .start f => some { s with flows := s.flows ++ [⟨program f, fun _ => none⟩] }
  | .turn i object =>
    match s.flows[i]? with
    | some ⟨instr :: rest, registers⟩ =>
      (s.exec registers object instr).map fun r => r.1.setFlow i ⟨rest, r.2⟩
    | _ => none
  | .abandon i => some (s.setFlow i ⟨[], fun _ => none⟩)
  | .forget p => some (s.put p none)

end Boundary

/-! ## The static check -/

/-- What is known of a register: an object from outside, a copy that nothing else refers to, or a
reference inside. -/
inductive Kind
  | foreign
  | fresh
  | shared
  deriving DecidableEq, Repr

def Kind.isInside : Option Kind → Bool
  | some .fresh | some .shared => true
  | _ => false

def Instr.check {Place : Type} (kinds : ℕ → Option Kind) :
    Instr Place → Option (ℕ → Option Kind)
  | .take x => some (Function.update kinds x (some .foreign))
  | .accept x y =>
    if kinds x = some .foreign then some (Function.update kinds y (some .fresh)) else none
  | .load _ x => some (Function.update kinds x (some .shared))
  | .copy x y =>
    if Kind.isInside (kinds x) then some (Function.update kinds y (some .fresh)) else none
  | .save x _ =>
    if Kind.isInside (kinds x) then some (Function.update kinds x (some .shared)) else none
  | .hand x =>
    if kinds x = some .fresh then some (Function.update kinds x (some .foreign)) else none

def checks {Place : Type} (kinds : ℕ → Option Kind) : List (Instr Place) → Bool
  | [] => true
  | instr :: rest =>
    match instr.check kinds with
    | some next => checks next rest
    | none => false

/-! ## What the check keeps -/

inductive Location (Place : Type)
  | place (p : Place)
  | register (i x : ℕ)

namespace Boundary
variable {F Place V : Type}

/-- The reference at a place or in a register of a flow. -/
def refAt (s : Boundary Place V) : Location Place → Option Held
  | .place p => s.places p
  | .register i x => (s.flows[i]?).bind fun f => f.registers x

/-- The object is out of reach from outside and holds what was accepted. -/
def Inside (s : Boundary Place V) (held : Held) : Prop :=
  held.object ∉ s.outside ∧ ∃ a v, held.acceptance = some a ∧
    s.contents[held.object]? = some v ∧ s.accepted[a]? = some v

/-- No other location refers to the object. -/
def Alone (s : Boundary Place V) (ℓ : Location Place) (held : Held) : Prop :=
  ∀ ℓ' held', ℓ' ≠ ℓ → s.refAt ℓ' = some held' → held'.object ≠ held.object

/-- The location holds nothing, or what its kind says. -/
def Fits (s : Boundary Place V) (ℓ : Location Place) (kind : Option Kind) : Prop :=
  ∀ held, s.refAt ℓ = some held → match kind with
    | none => False
    | some .foreign => held.object ∈ s.outside
    | some .shared => s.Inside held
    | some .fresh => s.Inside held ∧ s.Alone ℓ held

structure Sound (s : Boundary Place V) : Prop where
  places : ∀ p held, s.places p = some held → s.Inside held
  outside : ∀ object ∈ s.outside, object < s.contents.length
  flows : ∀ (i : ℕ) f, s.flows[i]? = some f →
    ∃ kinds, checks kinds f.rest = true ∧ ∀ x, s.Fits (.register i x) (kinds x)
  deliveries : ∀ d ∈ s.deliveries, d.held.object ∈ s.outside ∧
    ∃ a, d.held.acceptance = some a ∧ s.accepted[a]? = some d.content
  apart : (s.deliveries.map fun d => d.held.object).Nodup

theorem sound_new : (new : Boundary Place V).Sound :=
  ⟨by simp [new], by simp [new], by simp [new], by simp [new], by simp [new]⟩

variable {s t : Boundary Place V} {ℓ ℓ₀ : Location Place} {held : Held} {kind : Option Kind}

theorem Inside.lt (h : s.Inside held) : held.object < s.contents.length := by
  obtain ⟨-, a, v, -, hv, -⟩ := h
  exact (List.getElem?_eq_some_iff.mp hv).1

/-- What is inside fits a shared location, and a location of either kind holds what is inside. -/
theorem Fits.inside (h : s.Fits ℓ kind) (hkind : Kind.isInside kind = true)
    (hheld : s.refAt ℓ = some held) : s.Inside held := by
  have hfits := h held hheld
  cases kind with
  | none => simp [Kind.isInside] at hkind
  | some kind =>
    cases kind with
    | foreign => simp [Kind.isInside] at hkind
    | fresh => exact hfits.1
    | shared => exact hfits

/-- The heap may grow and one location may change; outside reaches the same objects. -/
structure Writes (s t : Boundary Place V) (ℓ₀ : Location Place) : Prop where
  elsewhere : ∀ ℓ, ℓ ≠ ℓ₀ → t.refAt ℓ = s.refAt ℓ
  outside : t.outside = s.outside
  contents : ∀ (o : ℕ) v, s.contents[o]? = some v → t.contents[o]? = some v
  accepted : ∀ (a : ℕ) v, s.accepted[a]? = some v → t.accepted[a]? = some v

theorem Writes.inside (h : Writes s t ℓ₀) (hheld : s.Inside held) : t.Inside held := by
  obtain ⟨hout, a, v, ha, hv, hacc⟩ := hheld
  exact ⟨by rwa [h.outside], a, v, ha, h.contents _ v hv, h.accepted a v hacc⟩

/-- The reference is to a new object, to one from outside, or to one that a location other than
`ℓ` refers to. -/
def Known (s : Boundary Place V) (ℓ : Location Place) (held : Held) : Prop :=
  held.object ∈ s.outside ∨ s.contents.length ≤ held.object ∨
    ∃ ℓ' held', ℓ' ≠ ℓ ∧ s.refAt ℓ' = some held' ∧ held'.object = held.object

/-- A location that is not written keeps its kind, unless the written one now shares its object. -/
theorem Writes.fits (h : Writes s t ℓ₀) (hne : ℓ ≠ ℓ₀)
    (hnew : ∀ held, t.refAt ℓ₀ = some held → s.Known ℓ held) (hfits : s.Fits ℓ kind) :
    t.Fits ℓ kind := by
  intro held hheld
  rw [h.elsewhere ℓ hne] at hheld
  have hkind := hfits held hheld
  cases kind with
  | none => exact hkind
  | some kind =>
    cases kind with
    | foreign =>
      simp only [h.outside]
      exact hkind
    | shared => exact h.inside hkind
    | fresh =>
      refine ⟨h.inside hkind.1, ?_⟩
      intro ℓ' held' hne' hheld'
      by_cases hℓ : ℓ' = ℓ₀
      · subst hℓ
        obtain hout | hlen | ⟨ℓ'', held'', hne'', hheld'', hobject⟩ := hnew held' hheld'
        · intro heq
          exact hkind.1.1 (heq ▸ hout)
        · have hlt := hkind.1.lt
          omega
        · rw [← hobject]
          exact hkind.2 ℓ'' held'' hne'' hheld''
      · rw [h.elsewhere ℓ' hℓ] at hheld'
        exact hkind.2 ℓ' held' hne' hheld'

/-- One flow moves on and writes one location. -/
theorem Sound.writes (hs : s.Sound) (h : Writes s t ℓ₀) {i : ℕ} {f g : Flow Place}
    (hf : s.flows[i]? = some f) (hflows : t.flows = s.flows.set i g)
    (hlength : s.contents.length ≤ t.contents.length)
    (hdeliveries : t.deliveries = s.deliveries)
    (hplaces : ∀ p held, ℓ₀ = .place p → t.places p = some held → s.Inside held)
    (hnew : ∀ j x held, j ≠ i → ℓ₀ ≠ .register j x → t.refAt ℓ₀ = some held →
      s.Known (.register j x) held)
    (hother : ∀ j x, ℓ₀ = .register j x → j = i)
    (hg : ∃ kinds, checks kinds g.rest = true ∧ ∀ x, t.Fits (.register i x) (kinds x)) :
    t.Sound := by
  have hi : i < s.flows.length := (List.getElem?_eq_some_iff.mp hf).1
  refine ⟨?_, ?_, ?_, ?_, ?_⟩
  · intro p held hp
    by_cases hℓ : ℓ₀ = .place p
    · exact h.inside (hplaces p held hℓ hp)
    · have hsame := h.elsewhere (.place p) (Ne.symm hℓ)
      simp only [refAt] at hsame
      exact h.inside (hs.places p held (hsame ▸ hp))
  · intro object hobject
    rw [h.outside] at hobject
    have hlt := hs.outside object hobject
    omega
  · intro j k hk
    rw [hflows, List.getElem?_set] at hk
    split at hk
    · rename_i hij
      subst hij
      simp at hk
      rw [← hk]
      exact hg
    · rename_i hij
      obtain ⟨kinds, hchecks, hfits⟩ := hs.flows j k hk
      refine ⟨kinds, hchecks, fun x => ?_⟩
      have hne : (.register j x : Location Place) ≠ ℓ₀ := by
        intro heq
        exact hij (hother j x heq.symm).symm
      exact h.fits hne (fun held hheld => hnew j x held (Ne.symm hij) hne.symm hheld) (hfits x)
  · intro d hd
    rw [hdeliveries] at hd
    obtain ⟨hout, a, ha, hacc⟩ := hs.deliveries d hd
    exact ⟨by rwa [h.outside], a, ha, h.accepted a _ hacc⟩
  · rw [hdeliveries]
    exact hs.apart

theorem refAt_grow (contents accepted : List V) :
    (s.grow contents accepted).refAt ℓ = s.refAt ℓ := by
  cases ℓ <;> rfl

theorem grow_nil : s.grow [] [] = s := by simp [grow]

theorem refAt_setFlow {i : ℕ} {g : Flow Place} (hi : i < s.flows.length) (j x : ℕ) :
    (s.setFlow i g).refAt (.register j x) =
      if j = i then g.registers x else s.refAt (.register j x) := by
  simp only [refAt, setFlow, List.getElem?_set]
  by_cases hij : i = j
  · subst hij
    simp [hi]
  · simp [hij, Ne.symm hij]

/-- No reference dangles. -/
theorem Sound.lt (hs : s.Sound) (hheld : s.refAt ℓ = some held) :
    held.object < s.contents.length := by
  cases ℓ with
  | place p => exact (hs.places p held hheld).lt
  | register i x =>
    have hregister := hheld
    simp only [refAt, Option.bind_eq_some_iff] at hregister
    obtain ⟨f, hf, -⟩ := hregister
    obtain ⟨kinds, -, hfits⟩ := hs.flows i f hf
    have hkind := hfits x held hheld
    cases hk : kinds x with
    | none => simp [hk] at hkind
    | some kind =>
      cases kind with
      | foreign =>
        simp only [hk] at hkind
        exact hs.outside _ hkind
      | fresh | shared => exact ((hfits x).inside (by simp [hk, Kind.isInside]) hheld).lt

/-- A reference to an object that was just made is the only one, and the object is inside when it
was given the content of an acceptance. -/
theorem Sound.fits_made (hs : s.Sound) (h : Writes s t ℓ)
    (hmade : ∀ held, t.refAt ℓ = some held → held.object = s.contents.length ∧
      ∃ a v, held.acceptance = some a ∧ t.contents[held.object]? = some v ∧
        t.accepted[a]? = some v) : t.Fits ℓ (some .fresh) := by
  intro held hheld
  obtain ⟨hobject, hcontent⟩ := hmade held hheld
  refine ⟨⟨?_, hcontent⟩, ?_⟩
  · rw [h.outside, hobject]
    intro hout
    have hlt := hs.outside _ hout
    omega
  · intro ℓ' held' hne hheld'
    rw [h.elsewhere ℓ' hne] at hheld'
    have hlt := hs.lt hheld'
    omega

section
variable {i : ℕ} {instr : Instr Place} {rest : List (Instr Place)}
  {registers : ℕ → Option Held} {kinds next : ℕ → Option Kind}

/-- Where a flow stands: its registers fit `kinds`, and what is left of it passes the check. -/
structure At (s : Boundary Place V) (i : ℕ) (rest : List (Instr Place))
    (registers : ℕ → Option Held) (kinds : ℕ → Option Kind) : Prop where
  found : ∃ before, s.flows[i]? = some ⟨before :: rest, registers⟩
  fits : ∀ x, s.Fits (.register i x) (kinds x)

theorem At.lt (h : s.At i rest registers kinds) : i < s.flows.length := by
  obtain ⟨before, hf⟩ := h.found
  exact (List.getElem?_eq_some_iff.mp hf).1

theorem At.refAt (h : s.At i rest registers kinds) (x : ℕ) :
    s.refAt (.register i x) = registers x := by
  obtain ⟨before, hf⟩ := h.found
  simp [Boundary.refAt, hf]

/-- An instruction that puts a reference into a register. -/
theorem Sound.assign (hs : s.Sound) (hat : s.At i rest registers kinds) {y : ℕ}
    {value : Option Held} {kind : Kind} (contents accepted : List V)
    (hchecks : checks (Function.update kinds y (some kind)) rest = true)
    (ht : t = (s.grow contents accepted).setFlow i ⟨rest, Function.update registers y value⟩)
    (hknown : ∀ held, value = some held → ∀ j x, s.Known (.register j x) held)
    (hvalue : Writes s t (.register i y) → t.refAt (.register i y) = value →
      t.Fits (.register i y) (some kind)) : t.Sound := by
  have hread : ∀ j x, t.refAt (.register j x) =
      if j = i then Function.update registers y value x else s.refAt (.register j x) := by
    intro j x
    rw [ht, refAt_setFlow (s := s.grow contents accepted) hat.lt, refAt_grow]
  have hwrites : Writes s t (.register i y) := by
    refine ⟨?_, by rw [ht]; rfl, ?_, ?_⟩
    · intro ℓ hne
      cases ℓ with
      | place p => rw [ht]; rfl
      | register j x =>
        rw [hread]
        split
        · rename_i hji
          subst hji
          have hxy : x ≠ y := by
            intro heq
            exact hne (by rw [heq])
          rw [Function.update_of_ne hxy, hat.refAt]
        · rfl
    · intro o v hv
      rw [ht]
      exact (List.getElem?_append_left (List.getElem?_eq_some_iff.mp hv).1).trans hv
    · intro a v hv
      rw [ht]
      exact (List.getElem?_append_left (List.getElem?_eq_some_iff.mp hv).1).trans hv
  have hself : t.refAt (.register i y) = value := by
    rw [hread]
    simp
  obtain ⟨before, hf⟩ := hat.found
  refine hs.writes hwrites hf (g := ⟨rest, Function.update registers y value⟩) ?_ ?_ ?_ ?_ ?_ ?_ ?_
  · rw [ht]
    rfl
  · rw [ht]
    simp [setFlow, grow]
  · rw [ht]
    rfl
  · intro p held hp
    simp at hp
  · intro j x held _ _ hheld
    rw [hself] at hheld
    exact hknown held hheld j x
  · intro j x heq
    simp at heq
    exact heq.1.symm
  · refine ⟨_, hchecks, fun x => ?_⟩
    by_cases hxy : x = y
    · subst hxy
      rw [Function.update_self]
      exact hvalue hwrites hself
    · rw [Function.update_of_ne hxy]
      refine hwrites.fits ?_ ?_ (hat.fits x)
      · simp [hxy]
      · intro held hheld
        rw [hself] at hheld
        exact hknown held hheld i x

/-- A copy of an object: it is new, and it is the only reference to itself. -/
theorem Sound.assign_made (hs : s.Sound) (hat : s.At i rest registers kinds) {y : ℕ} {v : V}
    {accepted : List V} {acceptance : Option ℕ}
    (hchecks : checks (Function.update kinds y (some .fresh)) rest = true)
    (ht : t = (s.grow [v] accepted).setFlow i
      ⟨rest, Function.update registers y (some ⟨s.contents.length, acceptance⟩)⟩)
    (hacceptance : ∃ a, acceptance = some a ∧ (s.accepted ++ accepted)[a]? = some v) :
    t.Sound := by
  refine hs.assign hat [v] accepted hchecks ht ?_ ?_
  · intro held hheld j x
    rw [Option.some.injEq] at hheld
    subst hheld
    exact .inr (.inl (Nat.le_refl _))
  · intro hwrites hself
    refine hs.fits_made hwrites ?_
    intro held hheld
    rw [hself, Option.some.injEq] at hheld
    subst hheld
    obtain ⟨a, ha, hv⟩ := hacceptance
    refine ⟨rfl, a, v, ha, ?_, ?_⟩
    · rw [ht]
      simp [setFlow, grow]
    · rw [ht]
      exact hv

/-- An instruction whose register holds nothing leaves nothing in the other one. -/
theorem Sound.assign_none (hs : s.Sound) (hat : s.At i rest registers kinds) {y : ℕ} {kind : Kind}
    (hchecks : checks (Function.update kinds y (some kind)) rest = true)
    (ht : t = s.setFlow i ⟨rest, Function.update registers y none⟩) : t.Sound := by
  refine hs.assign hat [] [] hchecks (by rw [grow_nil, ht]) (by simp) ?_
  intro _ hself held hheld
  rw [hself] at hheld
  simp at hheld

/-- A step of the flow that moves nothing and shares what register `x` holds. -/
theorem Sound.skip (hs : s.Sound) (hat : s.At i rest registers kinds) {x : ℕ} {kind : Kind}
    (hchecks : checks (Function.update kinds x (some kind)) rest = true)
    (hnone : registers x = none) (ht : t = s.setFlow i ⟨rest, registers⟩) : t.Sound := by
  refine hs.assign_none hat hchecks ?_
  rw [ht, ← hnone, Function.update_eq_self]

/-- Handing out an object that nothing else refers to. -/
theorem Sound.hand (hs : s.Sound) (hat : s.At i rest registers kinds) {x : ℕ} {v : V}
    (hchecks : checks (Function.update kinds x (some .foreign)) rest = true)
    (hkind : kinds x = some .fresh) (hheld : registers x = some held)
    (hv : s.contents[held.object]? = some v)
    (ht : t = (s.handOut held v).setFlow i ⟨rest, registers⟩) : t.Sound := by
  have hfits := hat.fits x held (by rw [hat.refAt, hheld])
  rw [hkind] at hfits
  obtain ⟨⟨hout, a, w, ha, hw, hacc⟩, halone⟩ := hfits
  have hread : ∀ ℓ, t.refAt ℓ = s.refAt ℓ := by
    intro ℓ
    cases ℓ with
    | place p =>
      rw [ht]
      rfl
    | register j y =>
      rw [ht, refAt_setFlow (s := s.handOut held v) hat.lt]
      split
      · rename_i hji
        rw [hji, hat.refAt]
      · rfl
  have houtside : t.outside = held.object :: s.outside := by
    rw [ht]
    rfl
  -- every other reference is to another object, and so stays inside
  have hinside : ∀ ℓ held', ℓ ≠ .register i x → s.refAt ℓ = some held' → s.Inside held' →
      t.Inside held' := by
    intro ℓ held' hne hheld' hin
    refine ⟨?_, ?_⟩
    · rw [houtside]
      simp [halone ℓ held' hne hheld', hin.1]
    · rw [ht]
      exact hin.2
  have hkeeps : ∀ ℓ kind, ℓ ≠ .register i x → s.Fits ℓ kind → t.Fits ℓ kind := by
    intro ℓ kind hne hold held' hheld'
    rw [hread] at hheld'
    have hfits := hold held' hheld'
    cases kind with
    | none => exact hfits
    | some kind =>
      cases kind with
      | foreign =>
        simp only [houtside]
        exact List.mem_cons_of_mem _ hfits
      | shared => exact hinside ℓ held' hne hheld' hfits
      | fresh =>
        refine ⟨hinside ℓ held' hne hheld' hfits.1, ?_⟩
        intro ℓ' held'' hne' hheld''
        rw [hread] at hheld''
        exact hfits.2 ℓ' held'' hne' hheld''
  obtain ⟨before, hf⟩ := hat.found
  refine ⟨?_, ?_, ?_, ?_, ?_⟩
  · intro p held' hp
    have hp' : s.refAt (.place p) = some held' := by rw [← hread]; exact hp
    exact hinside _ held' (by simp) hp' (hs.places p held' hp')
  · intro object hobject
    rw [houtside, List.mem_cons] at hobject
    rw [ht]
    obtain rfl | hobject := hobject
    · exact (List.getElem?_eq_some_iff.mp hv).1
    · exact hs.outside object hobject
  · intro j g hg
    rw [ht] at hg
    simp only [setFlow, handOut, List.getElem?_set] at hg
    split at hg
    · rename_i hij
      subst hij
      simp at hg
      rw [← hg.2]
      refine ⟨_, hchecks, fun y => ?_⟩
      by_cases hyx : y = x
      · subst hyx
        rw [Function.update_self]
        intro held' hheld'
        rw [hread, hat.refAt, hheld, Option.some.injEq] at hheld'
        simp [houtside, ← hheld']
      · rw [Function.update_of_ne hyx]
        exact hkeeps _ _ (by simp [hyx]) (hat.fits y)
    · rename_i hij
      obtain ⟨kinds', hchecks', hfits'⟩ := hs.flows j g hg
      exact ⟨kinds', hchecks', fun y => hkeeps _ _ (by simp [Ne.symm hij]) (hfits' y)⟩
  · intro d hd
    rw [ht] at hd
    simp only [setFlow, handOut, List.mem_append, List.mem_singleton] at hd
    rw [houtside]
    obtain hd | rfl := hd
    · obtain ⟨hout', hacc'⟩ := hs.deliveries d hd
      refine ⟨List.mem_cons_of_mem _ hout', ?_⟩
      rw [ht]
      exact hacc'
    · rw [hv, Option.some.injEq] at hw
      refine ⟨List.mem_cons_self, a, ha, ?_⟩
      rw [ht, hw]
      exact hacc
  · rw [ht]
    simp only [setFlow, handOut, List.map_append, List.map_cons, List.map_nil]
    refine List.nodup_append.mpr ⟨hs.apart, List.nodup_singleton _, ?_⟩
    intro object hobject object' hobject'
    rw [List.mem_singleton] at hobject'
    rw [List.mem_map] at hobject
    obtain ⟨d, hd, hdo⟩ := hobject
    rw [hobject', ← hdo]
    intro heq
    exact hout (heq ▸ (hs.deliveries d hd).1)

variable [DecidableEq Place]

/-- Keeping a reference: the place and the register share it from now on. -/
theorem Sound.save (hs : s.Sound) (hat : s.At i rest registers kinds) {x : ℕ} {p : Place}
    (hchecks : checks (Function.update kinds x (some .shared)) rest = true)
    (hkind : Kind.isInside (kinds x) = true) (hheld : registers x = some held)
    (ht : t = (s.put p (some held)).setFlow i ⟨rest, registers⟩) : t.Sound := by
  have hinside : s.Inside held := (hat.fits x).inside hkind (by rw [hat.refAt, hheld])
  have hplace : t.refAt (.place p) = some held := by
    rw [ht]
    simp [refAt, setFlow, put]
  have hwrites : Writes s t (.place p) := by
    refine ⟨?_, by rw [ht]; rfl, ?_, ?_⟩
    · intro ℓ hne
      cases ℓ with
      | place q =>
        have hqp : q ≠ p := by
          intro heq
          exact hne (by rw [heq])
        rw [ht]
        simp [refAt, setFlow, put, Function.update_of_ne hqp]
      | register j y =>
        rw [ht, refAt_setFlow (s := s.put p (some held)) hat.lt]
        split
        · rename_i hji
          rw [hji, hat.refAt]
        · rfl
    · intro o v hv
      rwa [ht]
    · intro a v hv
      rwa [ht]
  obtain ⟨before, hf⟩ := hat.found
  refine hs.writes hwrites hf (g := ⟨rest, registers⟩) (by rw [ht]; rfl)
    (by rw [ht]; exact Nat.le_refl _) (by rw [ht]; rfl) ?_ ?_ (by simp) ?_
  · intro q held' hq hheld'
    simp only [Location.place.injEq] at hq
    subst hq
    have hsame : t.places p = some held := hplace
    rw [hsame, Option.some.injEq] at hheld'
    rwa [← hheld']
  · intro j y held' hj _ hheld'
    rw [hplace, Option.some.injEq] at hheld'
    refine .inr (.inr ⟨.register i x, held, ?_, by rw [hat.refAt, hheld], by rw [hheld']⟩)
    simp [Ne.symm hj]
  · refine ⟨_, hchecks, fun y => ?_⟩
    by_cases hyx : y = x
    · subst hyx
      rw [Function.update_self]
      intro held' hheld'
      rw [hwrites.elsewhere _ (by simp), hat.refAt, hheld, Option.some.injEq] at hheld'
      rw [← hheld']
      exact hwrites.inside hinside
    · rw [Function.update_of_ne hyx]
      refine hwrites.fits (by simp) ?_ (hat.fits y)
      intro held' hheld'
      rw [hplace, Option.some.injEq] at hheld'
      refine .inr (.inr ⟨.register i x, held, ?_, by rw [hat.refAt, hheld], by rw [hheld']⟩)
      simp [Ne.symm hyx]

/-- One instruction of a flow that passes the check. -/
theorem Sound.exec (hs : s.Sound) (hf : s.flows[i]? = some ⟨instr :: rest, registers⟩)
    {object : ℕ} {r : Boundary Place V × (ℕ → Option Held)}
    (hexec : s.exec registers object instr = some r) : (r.1.setFlow i ⟨rest, r.2⟩).Sound := by
  obtain ⟨kinds, hchecks, hfits⟩ := hs.flows i _ hf
  have hat : s.At i rest registers kinds := ⟨⟨instr, hf⟩, hfits⟩
  cases instr with
  | take x =>
    simp only [checks, Instr.check] at hchecks
    simp only [Boundary.exec] at hexec
    split at hexec
    · rename_i hout
      rw [Option.some.injEq] at hexec
      subst hexec
      refine hs.assign hat [] [] hchecks (by rw [grow_nil]) ?_ ?_
      · intro held hheld j x
        rw [Option.some.injEq] at hheld
        subst hheld
        exact .inl hout
      · intro hwrites hself held hheld
        rw [hself, Option.some.injEq] at hheld
        subst hheld
        simpa [hwrites.outside] using hout
    · simp at hexec
  | accept x y =>
    simp only [checks, Instr.check] at hchecks
    split at hchecks
    · rename_i next hnext
      split at hnext
      · rw [Option.some.injEq] at hnext
        subst hnext
        simp only [Boundary.exec] at hexec
        split at hexec
        · rw [Option.some.injEq] at hexec
          subst hexec
          exact hs.assign_none hat hchecks rfl
        · rw [Option.map_eq_some_iff] at hexec
          obtain ⟨v, -, rfl⟩ := hexec
          exact hs.assign_made hat hchecks rfl ⟨_, rfl, by simp⟩
      · simp at hnext
    · simp at hchecks
  | load p x =>
    simp only [checks, Instr.check] at hchecks
    simp only [Boundary.exec, Option.some.injEq] at hexec
    subst hexec
    refine hs.assign hat [] [] hchecks (by rw [grow_nil]) ?_ ?_
    · intro held hheld j y
      exact .inr (.inr ⟨.place p, held, by simp, hheld, rfl⟩)
    · intro hwrites hself held hheld
      rw [hself] at hheld
      exact hwrites.inside (hs.places p held hheld)
  | copy x y =>
    simp only [checks, Instr.check] at hchecks
    split at hchecks
    · rename_i next hnext
      split at hnext
      · rename_i hkind
        rw [Option.some.injEq] at hnext
        subst hnext
        simp only [Boundary.exec] at hexec
        split at hexec
        · rw [Option.some.injEq] at hexec
          subst hexec
          exact hs.assign_none hat hchecks rfl
        · rename_i held hheld
          rw [Option.map_eq_some_iff] at hexec
          obtain ⟨v, hv, rfl⟩ := hexec
          obtain ⟨-, a, w, ha, hw, hacc⟩ := (hat.fits x).inside hkind (by rw [hat.refAt, hheld])
          rw [hv, Option.some.injEq] at hw
          subst hw
          exact hs.assign_made hat hchecks rfl ⟨a, ha, by simpa using hacc⟩
      · simp at hnext
    · simp at hchecks
  | save x p =>
    simp only [checks, Instr.check] at hchecks
    split at hchecks
    · rename_i next hnext
      split at hnext
      · rename_i hkind
        rw [Option.some.injEq] at hnext
        subst hnext
        simp only [Boundary.exec] at hexec
        split at hexec
        · rename_i hnone
          rw [Option.some.injEq] at hexec
          subst hexec
          exact hs.skip hat hchecks hnone rfl
        · rename_i held hheld
          rw [Option.some.injEq] at hexec
          subst hexec
          exact hs.save hat hchecks hkind hheld rfl
      · simp at hnext
    · simp at hchecks
  | hand x =>
    simp only [checks, Instr.check] at hchecks
    split at hchecks
    · rename_i next hnext
      split at hnext
      · rename_i hkind
        rw [Option.some.injEq] at hnext
        subst hnext
        simp only [Boundary.exec] at hexec
        split at hexec
        · rename_i hnone
          rw [Option.some.injEq] at hexec
          subst hexec
          exact hs.skip hat hchecks hnone rfl
        · rename_i held hheld
          rw [Option.map_eq_some_iff] at hexec
          obtain ⟨v, hv, rfl⟩ := hexec
          exact hs.hand hat hchecks hkind hheld hv rfl
      · simp at hnext
    · simp at hchecks

end

/-! ## Every interleaving -/

/-- What outside code makes or changes, nothing inside refers to. -/
theorem Sound.changed (hs : s.Sound) {contents : List V} {outside : List ℕ}
    (hkept : ∀ object ∈ s.outside, object ∈ outside)
    (hnew : ∀ object ∈ outside, object ∈ s.outside ∨ s.contents.length ≤ object)
    (hbound : ∀ object ∈ outside, object < contents.length)
    (hcontents : ∀ (object : ℕ) v, object ∉ outside → s.contents[object]? = some v →
      contents[object]? = some v) :
    ({ s with contents := contents, outside := outside } : Boundary Place V).Sound := by
  have hinside : ∀ held, s.Inside held →
      ({ s with contents := contents, outside := outside } : Boundary Place V).Inside held := by
    intro held hin
    have hlt := hin.lt
    obtain ⟨hheld, a, w, ha, hw, hacc⟩ := hin
    have hout : held.object ∉ outside := by
      intro hmem
      obtain hold | hlen := hnew _ hmem
      · exact hheld hold
      · omega
    exact ⟨hout, a, w, ha, hcontents _ w hout hw, hacc⟩
  refine ⟨fun p held hp => hinside held (hs.places p held hp), hbound, ?_, ?_, hs.apart⟩
  · intro i f hf
    obtain ⟨kinds, hchecks, hfits⟩ := hs.flows i f hf
    refine ⟨kinds, hchecks, ?_⟩
    intro x held hheld
    have hkind := hfits x held hheld
    cases hk : kinds x with
    | none => simp [hk] at hkind
    | some kind =>
      cases kind with
      | foreign =>
        simp only [hk] at hkind ⊢
        exact hkept _ hkind
      | shared =>
        simp only [hk] at hkind
        exact hinside held hkind
      | fresh =>
        simp only [hk] at hkind
        exact ⟨hinside held hkind.1, hkind.2⟩
  · intro d hd
    obtain ⟨hout, hacc⟩ := hs.deliveries d hd
    exact ⟨hkept _ hout, hacc⟩

theorem Sound.allocate (hs : s.Sound) (v : V) : ({ s with
    contents := s.contents ++ [v]
    outside := s.contents.length :: s.outside } : Boundary Place V).Sound := by
  refine hs.changed (fun object => List.mem_cons_of_mem _) ?_ ?_ ?_
  · intro object hobject
    rw [List.mem_cons] at hobject
    obtain rfl | hold := hobject
    · exact .inr (Nat.le_refl _)
    · exact .inl hold
  · intro object hobject
    rw [List.mem_cons] at hobject
    rw [List.length_append, List.length_singleton]
    obtain rfl | hold := hobject
    · omega
    · have hlt := hs.outside object hold
      omega
  · intro object w _ hw
    rw [List.getElem?_append_left (List.getElem?_eq_some_iff.mp hw).1]
    exact hw

theorem Sound.mutate (hs : s.Sound) {object : ℕ} (hout : object ∈ s.outside) (v : V) :
    ({ s with contents := s.contents.set object v } : Boundary Place V).Sound := by
  refine hs.changed (fun _ => id) (fun _ => .inl) ?_ ?_
  · intro o ho
    rw [List.length_set]
    exact hs.outside o ho
  · intro o w ho hw
    have hne : object ≠ o := by
      intro heq
      exact ho (heq ▸ hout)
    rw [List.getElem?_set_ne hne]
    exact hw

/-- References may go, and flows may come that hold none. -/
theorem Sound.drop (hs : s.Sound) (hrefs : ∀ ℓ held, t.refAt ℓ = some held → s.refAt ℓ = some held)
    (hflows : ∀ (i : ℕ) f, t.flows[i]? = some f → s.flows[i]? = some f ∨
      (∃ kinds, checks kinds f.rest = true) ∧ ∀ x, f.registers x = none)
    (hcontents : t.contents = s.contents) (haccepted : t.accepted = s.accepted)
    (houtside : t.outside = s.outside) (hdeliveries : t.deliveries = s.deliveries) : t.Sound := by
  have hinside : ∀ held, s.Inside held → t.Inside held := by
    intro held hin
    unfold Inside
    rw [hcontents, haccepted, houtside]
    exact hin
  have hkeeps : ∀ ℓ kind, s.Fits ℓ kind → t.Fits ℓ kind := by
    intro ℓ kind hfits held hheld
    have hkind := hfits held (hrefs ℓ held hheld)
    cases kind with
    | none => exact hkind
    | some kind =>
      cases kind with
      | foreign => simpa [houtside] using hkind
      | shared => exact hinside held hkind
      | fresh =>
        refine ⟨hinside held hkind.1, ?_⟩
        intro ℓ' held' hne hheld'
        exact hkind.2 ℓ' held' hne (hrefs ℓ' held' hheld')
  refine ⟨?_, ?_, ?_, ?_, ?_⟩
  · intro p held hp
    exact hinside held (hs.places p held (hrefs (.place p) held hp))
  · rw [houtside, hcontents]
    exact hs.outside
  · intro i f hf
    obtain hold | ⟨⟨kinds, hchecks⟩, hnone⟩ := hflows i f hf
    · obtain ⟨kinds, hchecks, hfits⟩ := hs.flows i f hold
      exact ⟨kinds, hchecks, fun x => hkeeps _ _ (hfits x)⟩
    · refine ⟨kinds, hchecks, ?_⟩
      intro x held hheld
      simp [refAt, hf, hnone] at hheld
  · rw [hdeliveries, houtside, haccepted]
    exact hs.deliveries
  · rw [hdeliveries]
    exact hs.apart

variable [DecidableEq Place] {program : F → List (Instr Place)}

theorem Sound.step (hprogram : ∀ f, checks (fun _ => none) (program f) = true) (hs : s.Sound)
    {l : BoundaryLabel F Place V} (h : Boundary.step program s l = some t) : t.Sound := by
  cases l with
  | allocate v =>
    simp only [Boundary.step, Option.some.injEq] at h
    rw [← h]
    exact hs.allocate v
  | mutate object v =>
    simp only [Boundary.step] at h
    split at h
    · rename_i hout
      rw [Option.some.injEq] at h
      rw [← h]
      exact hs.mutate hout v
    · simp at h
  | start f =>
    simp only [Boundary.step, Option.some.injEq] at h
    subst h
    refine hs.drop ?_ ?_ rfl rfl rfl rfl
    · intro ℓ held hheld
      cases ℓ with
      | place p => exact hheld
      | register i x =>
        simp only [refAt, Option.bind_eq_some_iff] at hheld ⊢
        obtain ⟨g, hg, hx⟩ := hheld
        rw [List.getElem?_append] at hg
        split at hg
        · exact ⟨g, hg, hx⟩
        · rw [List.getElem?_singleton] at hg
          split at hg
          · rw [Option.some.injEq] at hg
            simp [← hg] at hx
          · simp at hg
    · intro i g hg
      rw [List.getElem?_append] at hg
      split at hg
      · exact .inl hg
      · rw [List.getElem?_singleton] at hg
        split at hg
        · rw [Option.some.injEq] at hg
          subst hg
          exact .inr ⟨⟨_, hprogram f⟩, fun _ => rfl⟩
        · simp at hg
  | turn i object =>
    simp only [Boundary.step] at h
    split at h
    · rename_i instr rest registers hf
      rw [Option.map_eq_some_iff] at h
      obtain ⟨r, hr, rfl⟩ := h
      exact hs.exec hf hr
    · simp at h
  | abandon i =>
    simp only [Boundary.step, Option.some.injEq] at h
    subst h
    refine hs.drop ?_ ?_ rfl rfl rfl rfl
    · intro ℓ held hheld
      cases ℓ with
      | place p => exact hheld
      | register j x =>
        simp only [refAt, setFlow, Option.bind_eq_some_iff, List.getElem?_set] at hheld ⊢
        obtain ⟨g, hg, hx⟩ := hheld
        split at hg
        · simp at hg
          simp [← hg.2] at hx
        · exact ⟨g, hg, hx⟩
    · intro j g hg
      simp only [setFlow, List.getElem?_set] at hg
      split at hg
      · simp at hg
        rw [← hg.2]
        exact .inr ⟨⟨fun _ => none, rfl⟩, fun _ => rfl⟩
      · exact .inl hg
  | forget p =>
    simp only [Boundary.step, Option.some.injEq] at h
    subst h
    refine hs.drop ?_ (fun _ _ => .inl) rfl rfl rfl rfl
    intro ℓ held hheld
    cases ℓ with
    | place q =>
      simp only [refAt, put, Function.update_apply] at hheld
      split at hheld
      · simp at hheld
      · exact hheld
    | register j x => exact hheld

/-- Flows that pass the check keep the boundary, whatever outside code does in between. -/
theorem Sound.run (hprogram : ∀ f, checks (fun _ => none) (program f) = true)
    {ls : List (BoundaryLabel F Place V)} (hrun : Run (Boundary.step program) new ls t) :
    t.Sound :=
  hrun.invariant Sound (fun _ _ _ _ hs h => hs.step hprogram h) sound_new


end Boundary
end Coalestra
