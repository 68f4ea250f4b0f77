import Mathlib.Data.List.Sort
import Coalestra.Lib.Dict
import Coalestra.Lib.FreshPaths

/-! # Health reports

`jsonSafe` turns whatever a health snapshot holds into plain data. It walks through the objects
depth first and keeps the containers it is inside of in `seen`, so a container that comes up again
below itself is reported as a cycle. An enum member is replaced by its value before `seen` is looked
at, and it is never entered there: members whose values lead back to them without a container in
between are followed forever. -/

namespace Coalestra
set_option autoImplicit false
set_option maxHeartbeats 250000

open Relation

/-! ## Objects -/

/-- `type(value)`: the names it carries. -/
structure PyType where
  moduleName : String
  qualname : String

inductive PyFloat
  | finite (value : ℚ)
  | nan
  | infinite (positive : Bool)

/-- What is handed out as it is. -/
inductive Scalar
  | none
  | bool (value : Bool)
  | int (value : ℤ)
  | str (value : String)

/-- The branch of the serializer that an object belongs to, with what that branch reads of it. A
mapping gives its items in iteration order, each key as `str` spells it. -/
inductive PyKind (Id : Type)
  | scalar (value : Scalar)
  | float (value : PyFloat)
  | enum (value : Id)
  | mapping (items : List (String × Id))
  | dataclass (fields : List (String × Id))
  | sequence (items : List Id)
  | set (items : List Id)
  | other

structure PyObject (Id : Type) where
  type : PyType
  kind : PyKind Id

/-- What reports are made of. -/
inductive PyValue
  | scalar (value : Scalar)
  | float (value : PyFloat)
  | list (items : List PyValue)
  | dict (items : List (String × PyValue))

instance : Inhabited PyValue := ⟨.scalar .none⟩

/-! ## The serializer -/

section
variable {Id : Type}

def qualifiedTypeName (value : PyObject Id) : String :=
  value.type.moduleName ++ "." ++ value.type.qualname

/-- `sorted(items, key=key)`. -/
def sortedBy {α : Type} (key : α → String) (items : List α) : List α :=
  items.insertionSort fun a b => key a ≤ key b

/-- `{key: value for key, value in pairs}`. -/
def dictOf (pairs : List (String × PyValue)) : PyValue :=
  .dict (pairs.foldl (fun d pair => d.set pair.1 pair.2) Dict.empty).entries

def floatSafe : PyFloat → PyValue
  | .finite value => .float (.finite value)
  | .nan => .scalar (.str "nan")
  | .infinite positive => .scalar (.str (if positive then "infinity" else "-infinity"))

def cycleMarker (value : PyObject Id) : PyValue :=
  dictOf [("type", .scalar (.str (qualifiedTypeName value))), ("cycle", .scalar (.bool true))]

def typeMarker (value : PyObject Id) : PyValue :=
  dictOf [("type", .scalar (.str (qualifiedTypeName value)))]

/-- Serializes the items of a comprehension from left to right. They share the one set `seen`, so
each finds it as the item before left it. -/
def inTurn (serialize : Finset Id → Id → Option (PyValue × Finset Id)) :
    Finset Id → List Id → Option (List PyValue × Finset Id)
  | seen, [] => some ([], seen)
  | seen, item :: rest => do
      let (value, seen) ← serialize seen item
      let (values, seen) ← inTurn serialize seen rest
      return (value :: values, seen)

variable [DecidableEq Id]

/-- `_json_safe`, with the set `seen` as it stands afterwards; `none` where `fuel` runs out. -/
def jsonSafe (repr : PyValue → String) (heap : Id → PyObject Id) :
    ℕ → Finset Id → Id → Option (PyValue × Finset Id)
  | 0, _, _ => none
  | fuel + 1, seen, value =>
    match (heap value).kind with
    | .scalar scalar => some (.scalar scalar, seen)
    | .float float => some (floatSafe float, seen)
    | .enum inner => jsonSafe repr heap fuel seen inner
    | kind =>
      if value ∈ seen then some (cycleMarker (heap value), seen)
      else match kind with
        | .mapping items => do
            let items := sortedBy Prod.fst items
            let (values, seen) ←
              inTurn (jsonSafe repr heap fuel) (insert value seen) (items.map Prod.snd)
            return (dictOf ((items.map Prod.fst).zip values), seen.erase value)
        | .dataclass fields => do
            let (values, seen) ←
              inTurn (jsonSafe repr heap fuel) (insert value seen) (fields.map Prod.snd)
            return (dictOf ((fields.map Prod.fst).zip values), seen.erase value)
        | .sequence items => do
            let (values, seen) ← inTurn (jsonSafe repr heap fuel) (insert value seen) items
            return (.list values, seen.erase value)
        | .set items => do
            let (values, seen) ← inTurn (jsonSafe repr heap fuel) (insert value seen) items
            return (.list (sortedBy repr values), seen.erase value)
        | _ => some (typeMarker (heap value), seen)

end

/-! ## What a report should be -/

section
variable {Id : Type}

/-- The objects whose identity is recorded while what they hold is serialized. -/
def PyKind.Container : PyKind Id → Prop
  | .mapping _ | .dataclass _ | .sequence _ | .set _ => True
  | _ => False

/-- What an object holds, in the order of its report. -/
def PyKind.held : PyKind Id → List Id
  | .enum value => [value]
  | .mapping items => (sortedBy Prod.fst items).map Prod.snd
  | .dataclass fields => fields.map Prod.snd
  | .sequence items => items
  | .set items => items
  | _ => []

/-- The report of a container, from the reports of what it holds. -/
def PyKind.assemble (repr : PyValue → String) : PyKind Id → List PyValue → PyValue
  | .mapping items, values => dictOf (((sortedBy Prod.fst items).map Prod.fst).zip values)
  | .dataclass fields, values => dictOf ((fields.map Prod.fst).zip values)
  | .set _, values => .list (sortedBy repr values)
  | _, values => .list values

/-- `b` is the value of the enum member `a`. -/
def ValueOf (heap : Id → PyObject Id) (a b : Id) : Prop := (heap a).kind = .enum b

/-- `a` holds `b`. -/
def Holds (heap : Id → PyObject Id) : Id → Id → Prop := Leads fun a => (heap a).kind.held

/-- None, booleans, integers, strings, finite floats, lists, and dictionaries with string keys. -/
inductive JsonSafe : PyValue → Prop
  | scalar (value : Scalar) : JsonSafe (.scalar value)
  | float (value : ℚ) : JsonSafe (.float (.finite value))
  | list {items : List PyValue} (h : ∀ value ∈ items, JsonSafe value) : JsonSafe (.list items)
  | dict {items : List (String × PyValue)} (hkeys : (items.map Prod.fst).Nodup)
      (h : ∀ item ∈ items, JsonSafe item.2) : JsonSafe (.dict items)

/-- The report of an object that is come upon inside the containers of `path`, innermost first. A
container stands as a cycle marker where it is one of these and is expanded where it is not. -/
inductive Renders (repr : PyValue → String) (heap : Id → PyObject Id) :
    List Id → Id → PyValue → Prop
  | scalar {path : List Id} {x : Id} {value : Scalar} (h : (heap x).kind = .scalar value) :
      Renders repr heap path x (.scalar value)
  | float {path : List Id} {x : Id} {value : PyFloat} (h : (heap x).kind = .float value) :
      Renders repr heap path x (floatSafe value)
  | enum {path : List Id} {x inner : Id} {value : PyValue} (h : (heap x).kind = .enum inner)
      (hinner : Renders repr heap path inner value) : Renders repr heap path x value
  | other {path : List Id} {x : Id} (h : (heap x).kind = .other) :
      Renders repr heap path x (typeMarker (heap x))
  | cycle {path : List Id} {x : Id} (h : (heap x).kind.Container) (hmem : x ∈ path) :
      Renders repr heap path x (cycleMarker (heap x))
  | container {path : List Id} {x : Id} (report : Id → PyValue) (h : (heap x).kind.Container)
      (hnot : x ∉ path)
      (hheld : ∀ child ∈ (heap x).kind.held, Renders repr heap (x :: path) child (report child)) :
      Renders repr heap path x ((heap x).kind.assemble repr ((heap x).kind.held.map report))

/-- The report of an object with everything it holds written out. -/
inductive Expands (repr : PyValue → String) (heap : Id → PyObject Id) : Id → PyValue → Prop
  | scalar {x : Id} {value : Scalar} (h : (heap x).kind = .scalar value) :
      Expands repr heap x (.scalar value)
  | float {x : Id} {value : PyFloat} (h : (heap x).kind = .float value) :
      Expands repr heap x (floatSafe value)
  | enum {x inner : Id} {value : PyValue} (h : (heap x).kind = .enum inner)
      (hinner : Expands repr heap inner value) : Expands repr heap x value
  | other {x : Id} (h : (heap x).kind = .other) : Expands repr heap x (typeMarker (heap x))
  | container {x : Id} (report : Id → PyValue) (h : (heap x).kind.Container)
      (hheld : ∀ child ∈ (heap x).kind.held, Expands repr heap child (report child)) :
      Expands repr heap x ((heap x).kind.assemble repr ((heap x).kind.held.map report))

end

section
variable {Id : Type} {repr : PyValue → String} {heap : Id → PyObject Id} {x : Id}

/-! ## What a report is made of -/

theorem dictOf_json_safe {pairs : List (String × PyValue)} (h : ∀ pair ∈ pairs, JsonSafe pair.2) :
    JsonSafe (dictOf pairs) := by
  have hall : ∀ (pairs : List (String × PyValue)) (d : Dict String PyValue),
      (∀ pair ∈ pairs, JsonSafe pair.2) → (∀ entry ∈ d.entries, JsonSafe entry.2) →
      ∀ entry ∈ (pairs.foldl (fun d pair => d.set pair.1 pair.2) d).entries, JsonSafe entry.2 := by
    intro pairs
    induction pairs with
    | nil => exact fun d _ hd => hd
    | cons pair rest ih =>
      intro d hpairs hd
      refine ih _ (fun other hother => hpairs other (List.mem_cons_of_mem pair hother)) ?_
      intro entry hentry
      rcases Dict.mem_entries_set hentry with ⟨-, hvalue⟩ | hold
      · rw [hvalue]
        exact hpairs pair (List.mem_cons_self ..)
      · exact hd entry hold
  exact .dict (Dict.nodup _) (hall pairs Dict.empty h fun entry hentry => by cases hentry)

theorem floatSafe_json_safe (value : PyFloat) : JsonSafe (floatSafe value) := by
  cases value with
  | finite value => exact .float value
  | nan => exact .scalar _
  | infinite positive => exact .scalar _

theorem assemble_json_safe {kind : PyKind Id} {values : List PyValue}
    (h : ∀ value ∈ values, JsonSafe value) : JsonSafe (kind.assemble repr values) := by
  have hzip : ∀ keys : List String, JsonSafe (dictOf (keys.zip values)) := fun keys =>
    dictOf_json_safe fun pair hpair => h pair.2 (List.of_mem_zip hpair).2
  cases kind with
  | mapping items => exact hzip _
  | dataclass fields => exact hzip _
  | set items =>
    refine .list fun value hvalue => h value ?_
    exact (List.mem_insertionSort _).mp hvalue
  | scalar _ => exact .list h
  | float _ => exact .list h
  | enum _ => exact .list h
  | sequence _ => exact .list h
  | other => exact .list h

theorem marker_json_safe (value : PyObject Id) :
    JsonSafe (cycleMarker value) ∧ JsonSafe (typeMarker value) := by
  constructor
  · refine dictOf_json_safe fun pair hpair => ?_
    simp only [List.mem_cons, List.not_mem_nil, or_false] at hpair
    rcases hpair with rfl | rfl <;> exact .scalar _
  · refine dictOf_json_safe fun pair hpair => ?_
    rw [List.mem_singleton.mp hpair]
    exact .scalar _

theorem Renders.json_safe {path : List Id} {value : PyValue} (h : Renders repr heap path x value) :
    JsonSafe value := by
  induction h with
  | scalar h => exact .scalar _
  | float h => exact floatSafe_json_safe _
  | enum _ _ ih => exact ih
  | other _ => exact (marker_json_safe _).2
  | cycle _ _ => exact (marker_json_safe _).1
  | container report _ _ _ ih =>
    refine assemble_json_safe fun value hvalue => ?_
    obtain ⟨child, hchild, rfl⟩ := List.mem_map.mp hvalue
    exact ih child hchild

/-- There is only one report. -/
theorem Renders.unique {path : List Id} {v w : PyValue} (hv : Renders repr heap path x v)
    (hw : Renders repr heap path x w) : v = w := by
  induction hv generalizing w with
  | scalar h => cases hw <;> simp_all [PyKind.Container]
  | float h => cases hw <;> simp_all [PyKind.Container]
  | enum h _ ih =>
    cases hw with
    | enum h' hinner =>
      cases h.symm.trans h'
      exact ih hinner
    | _ => simp_all [PyKind.Container]
  | other h => cases hw <;> simp_all [PyKind.Container]
  | cycle h hmem => cases hw <;> simp_all [PyKind.Container]
  | container report h hnot _ ih =>
    cases hw with
    | container other _ _ hheld =>
      have hsame := List.map_congr_left fun child hchild => ih child hchild (hheld child hchild)
      rw [hsame]
    | _ => simp_all [PyKind.Container]

/-- Where no object comes up again below itself nothing is left out, however often it is shared. -/
theorem Renders.expands {path : List Id} {value : PyValue} (h : Renders repr heap path x value)
    (hpath : ∀ y ∈ path, TransGen (Holds heap) y x)
    (hacyclic : ∀ y, ReflTransGen (Holds heap) x y → ¬ TransGen (Holds heap) y y) :
    Expands repr heap x value := by
  induction h with
  | scalar h => exact .scalar h
  | float h => exact .float h
  | @enum path x inner value h _ ih =>
    have hinner : Holds heap x inner := by simp [Holds, Leads, h, PyKind.held]
    refine .enum h (ih (fun y hy => ?_) fun y hy => ?_)
    · exact (hpath y hy).tail hinner
    · exact hacyclic y (hy.head hinner)
  | other h => exact .other h
  | @cycle path x _ hmem => exact absurd (hpath x hmem) (hacyclic x .refl)
  | @container path x report h _ _ ih =>
    refine .container report h fun child hchild => ih child hchild (fun y hy => ?_) fun y hy => ?_
    · rcases List.mem_cons.mp hy with rfl | hy
      · exact .single hchild
      · exact (hpath y hy).tail hchild
    · exact hacyclic y (hy.head hchild)

end

/-! ## Items in turn -/

section
variable {Id : Type} {serialize more : Finset Id → Id → Option (PyValue × Finset Id)}
  {seen : Finset Id} {items : List Id}

theorem inTurn_of_reports {report : Id → PyValue}
    (h : ∀ item ∈ items, serialize seen item = some (report item, seen)) :
    inTurn serialize seen items = some (items.map report, seen) := by
  induction items with
  | nil => rfl
  | cons item rest ih =>
    have hitem := h item (List.mem_cons_self ..)
    have hrest := ih fun other hother => h other (List.mem_cons_of_mem item hother)
    simp [inTurn, hitem, hrest]

/-- Where items leave the set as they find it, each is serialized with the set of the first. -/
theorem returns_of_inTurn (hrestores : ∀ item r, serialize seen item = some r → r.2 = seen)
    {r : List PyValue × Finset Id} (h : inTurn serialize seen items = some r) :
    ∀ item ∈ items, ∃ value, serialize seen item = some (value, seen) := by
  induction items generalizing r with
  | nil => simp
  | cons item rest ih =>
    simp only [inTurn, Option.bind_eq_bind, Option.bind_eq_some_iff] at h
    obtain ⟨first, hfirst, second, hsecond, -⟩ := h
    have hsame := hrestores item first hfirst
    rw [hsame] at hsecond
    intro other hother
    rcases List.mem_cons.mp hother with rfl | hmem
    · refine ⟨first.1, ?_⟩
      rw [hfirst, ← hsame]
    · exact ih hsecond other hmem

theorem inTurn_eq_some (hrestores : ∀ item r, serialize seen item = some r → r.2 = seen)
    {r : List PyValue × Finset Id} (h : inTurn serialize seen items = some r) :
    ∃ report : Id → PyValue, (∀ item ∈ items, serialize seen item = some (report item, seen)) ∧
      r = (items.map report, seen) := by
  choose! report hreport using returns_of_inTurn hrestores h
  have hvalues := inTurn_of_reports hreport
  exact ⟨report, hreport, Option.some_inj.mp (h.symm.trans hvalues)⟩

theorem inTurn_more
    (hmore : ∀ seen item r, serialize seen item = some r → more seen item = some r)
    {r : List PyValue × Finset Id} (h : inTurn serialize seen items = some r) :
    inTurn more seen items = some r := by
  induction items generalizing seen r with
  | nil => exact h
  | cons item rest ih =>
    simp only [inTurn, Option.bind_eq_bind, Option.bind_eq_some_iff] at h ⊢
    obtain ⟨first, hfirst, second, hsecond, hr⟩ := h
    exact ⟨first, hmore _ _ _ hfirst, second, ih hsecond, hr⟩

end

/-! ## One level of the serializer -/

section
variable {Id : Type}

/-- The branches of the serializer; the four kinds of containers are treated alike. -/
theorem PyKind.branch (kind : PyKind Id) : (∃ value, kind = .scalar value) ∨
    (∃ value, kind = .float value) ∨ (∃ inner, kind = .enum inner) ∨ kind = .other ∨
    kind.Container := by
  cases kind <;> simp [Container]

variable [DecidableEq Id] {repr : PyValue → String} {heap : Id → PyObject Id} {fuel : ℕ}
  {seen : Finset Id} {x : Id}

attribute [local simp] jsonSafe

theorem jsonSafe_scalar {value : Scalar} (h : (heap x).kind = .scalar value) :
    jsonSafe repr heap (fuel + 1) seen x = some (.scalar value, seen) := by
  simp only [jsonSafe, h]

theorem jsonSafe_float {value : PyFloat} (h : (heap x).kind = .float value) :
    jsonSafe repr heap (fuel + 1) seen x = some (floatSafe value, seen) := by
  simp only [jsonSafe, h]

theorem jsonSafe_enum {inner : Id} (h : (heap x).kind = .enum inner) :
    jsonSafe repr heap (fuel + 1) seen x = jsonSafe repr heap fuel seen inner := by
  simp only [jsonSafe, h]

theorem jsonSafe_other (h : (heap x).kind = .other) : jsonSafe repr heap (fuel + 1) seen x =
    some (if x ∈ seen then cycleMarker (heap x) else typeMarker (heap x), seen) := by
  simp only [jsonSafe, h]
  split <;> rfl

theorem jsonSafe_cycle (h : (heap x).kind.Container) (hmem : x ∈ seen) :
    jsonSafe repr heap (fuel + 1) seen x = some (cycleMarker (heap x), seen) := by
  cases hk : (heap x).kind <;> simp [jsonSafe, hk, hmem, PyKind.Container] at h ⊢

/-- A container that is not recorded is recorded while what it holds is serialized. -/
theorem jsonSafe_container (h : (heap x).kind.Container) (hnot : x ∉ seen) :
    jsonSafe repr heap (fuel + 1) seen x =
      (inTurn (jsonSafe repr heap fuel) (insert x seen) (heap x).kind.held).map fun r =>
        ((heap x).kind.assemble repr r.1, r.2.erase x) := by
  cases hk : (heap x).kind <;> simp only [hk, PyKind.Container] at h <;>
    simp only [jsonSafe, hk, if_neg hnot, PyKind.held, PyKind.assemble] <;>
    exact Option.map_eq_bind.symm

/-! ## Runs of the serializer -/

/-- The set is left as it was found. -/
theorem jsonSafe_restores {r : PyValue × Finset Id} (h : jsonSafe repr heap fuel seen x = some r) :
    r.2 = seen := by
  induction fuel generalizing seen x r with
  | zero => cases h
  | succ fuel ih =>
    rcases (heap x).kind.branch with ⟨value, hk⟩ | ⟨value, hk⟩ | ⟨inner, hk⟩ | hk | hk
    · cases (jsonSafe_scalar hk).symm.trans h
      rfl
    · cases (jsonSafe_float hk).symm.trans h
      rfl
    · exact ih ((jsonSafe_enum hk).symm.trans h)
    · cases (jsonSafe_other hk).symm.trans h
      rfl
    · by_cases hmem : x ∈ seen
      · cases (jsonSafe_cycle hk hmem).symm.trans h
        rfl
      · rw [jsonSafe_container hk hmem] at h
        obtain ⟨inner, hinner, rfl⟩ := Option.map_eq_some_iff.mp h
        obtain ⟨report, -, rfl⟩ := inTurn_eq_some (fun _ _ hitem => ih hitem) hinner
        exact Finset.erase_insert hmem

/-- More fuel changes nothing. -/
theorem jsonSafe_succ {r : PyValue × Finset Id} (h : jsonSafe repr heap fuel seen x = some r) :
    jsonSafe repr heap (fuel + 1) seen x = some r := by
  induction fuel generalizing seen x r with
  | zero => cases h
  | succ fuel ih =>
    rcases (heap x).kind.branch with ⟨value, hk⟩ | ⟨value, hk⟩ | ⟨inner, hk⟩ | hk | hk
    · rw [jsonSafe_scalar hk] at h ⊢
      exact h
    · rw [jsonSafe_float hk] at h ⊢
      exact h
    · rw [jsonSafe_enum hk] at h ⊢
      exact ih h
    · rw [jsonSafe_other hk] at h ⊢
      exact h
    · by_cases hmem : x ∈ seen
      · rw [jsonSafe_cycle hk hmem] at h ⊢
        exact h
      · rw [jsonSafe_container hk hmem] at h ⊢
        obtain ⟨inner, hinner, hr⟩ := Option.map_eq_some_iff.mp h
        rw [inTurn_more (fun _ _ _ hitem => ih hitem) hinner]
        exact congrArg some hr

theorem jsonSafe_mono {more : ℕ} (hle : fuel ≤ more) {r : PyValue × Finset Id}
    (h : jsonSafe repr heap fuel seen x = some r) : jsonSafe repr heap more seen x = some r := by
  induction hle with
  | refl => exact h
  | step _ ih => exact jsonSafe_succ ih

/-- A run that returns has reported the object inside the containers it has recorded. -/
theorem jsonSafe_renders {path : List Id} (hseen : ∀ y, y ∈ seen ↔ y ∈ path)
    (hpath : ∀ y ∈ path, (heap y).kind.Container) {r : PyValue × Finset Id}
    (h : jsonSafe repr heap fuel seen x = some r) : Renders repr heap path x r.1 := by
  induction fuel generalizing seen x r path with
  | zero => cases h
  | succ fuel ih =>
    rcases (heap x).kind.branch with ⟨value, hk⟩ | ⟨value, hk⟩ | ⟨inner, hk⟩ | hk | hk
    · cases (jsonSafe_scalar hk).symm.trans h
      exact .scalar hk
    · cases (jsonSafe_float hk).symm.trans h
      exact .float hk
    · exact .enum hk (ih hseen hpath ((jsonSafe_enum hk).symm.trans h))
    · -- Only containers are recorded.
      have hnot : x ∉ seen := by
        intro hmem
        have hcontainer := hpath x ((hseen x).mp hmem)
        rw [hk] at hcontainer
        exact hcontainer
      rw [jsonSafe_other hk, if_neg hnot] at h
      cases h
      exact .other hk
    · by_cases hmem : x ∈ seen
      · cases (jsonSafe_cycle hk hmem).symm.trans h
        exact .cycle hk ((hseen x).mp hmem)
      · rw [jsonSafe_container hk hmem] at h
        obtain ⟨inner, hinner, rfl⟩ := Option.map_eq_some_iff.mp h
        obtain ⟨report, hreport, rfl⟩ :=
          inTurn_eq_some (fun _ _ hitem => jsonSafe_restores hitem) hinner
        refine .container report hk (fun hin => hmem ((hseen x).mpr hin)) fun child hchild => ?_
        refine ih (fun y => ?_) (fun y hy => ?_) (hreport child hchild)
        · rw [Finset.mem_insert, List.mem_cons, hseen]
        · rcases List.mem_cons.mp hy with rfl | hy
          · exact hk
          · exact hpath y hy

/-! ## When the serializer returns -/

/-- Fuel for each of finitely many items is enough for all of them. -/
theorem exists_common_fuel {items : List Id}
    (h : ∀ item ∈ items, ∃ fuel r, jsonSafe repr heap fuel seen item = some r) :
    ∃ fuel, ∀ item ∈ items, ∃ value, jsonSafe repr heap fuel seen item = some (value, seen) := by
  induction items with
  | nil => exact ⟨0, fun item hitem => by cases hitem⟩
  | cons item rest ih =>
    obtain ⟨n, r, hr⟩ := h item (List.mem_cons_self ..)
    obtain ⟨m, hm⟩ := ih fun other hother => h other (List.mem_cons_of_mem item hother)
    refine ⟨max n m, fun other hother => ?_⟩
    rcases List.mem_cons.mp hother with rfl | hmem
    · refine ⟨r.1, ?_⟩
      rw [jsonSafe_mono (le_max_left n m) hr, ← jsonSafe_restores hr]
    · obtain ⟨value, hvalue⟩ := hm other hmem
      exact ⟨value, jsonSafe_mono (le_max_right n m) hvalue⟩

omit [DecidableEq Id] in
/-- Only enum members lead on without being recorded. -/
theorem valueOf_of_leadsFreely {a b : Id}
    (h : LeadsFreely (fun a => (heap a).kind.held) (fun a => (heap a).kind.Container) a b) :
    ValueOf heap a b := by
  obtain ⟨hfree, hb⟩ := h
  rcases (heap a).kind.branch with ⟨value, hk⟩ | ⟨value, hk⟩ | ⟨inner, hk⟩ | hk | hk
  · simp [hk, PyKind.held] at hb
  · simp [hk, PyKind.held] at hb
  · simp only [hk, PyKind.held, List.mem_singleton] at hb
    subst hb
    exact hk
  · simp [hk, PyKind.held] at hb
  · exact absurd hk hfree

/-- Over finitely many objects the serializer returns unless enum members lead round in a circle. -/
theorem jsonSafe_returns [Fintype Id] {root : Id}
    (h : ∀ y, ReflTransGen (Holds heap) root y → ¬ TransGen (ValueOf heap) y y) :
    ∃ fuel r, jsonSafe repr heap fuel seen root = some r := by
  refine fresh_induction (fun a => (heap a).kind.held) (fun a => (heap a).kind.Container)
    (motive := fun seen x => ∃ fuel r, jsonSafe repr heap fuel seen x = some r)
    ?_ ?_ ?_ (fun y hy hloop => ?_) seen
  · intro S a hfree ih
    rcases (heap a).kind.branch with ⟨value, hk⟩ | ⟨value, hk⟩ | ⟨inner, hk⟩ | hk | hk
    · exact ⟨1, _, jsonSafe_scalar hk⟩
    · exact ⟨1, _, jsonSafe_float hk⟩
    · obtain ⟨fuel, r, hr⟩ := ih inner (by simp [hk, PyKind.held])
      exact ⟨fuel + 1, r, (jsonSafe_enum hk).trans hr⟩
    · exact ⟨1, _, jsonSafe_other hk⟩
    · exact absurd hk hfree
  · intro S a hk hmem
    exact ⟨1, _, jsonSafe_cycle hk hmem⟩
  · intro S a hk hnot ih
    obtain ⟨fuel, hfuel⟩ := exists_common_fuel ih
    choose! report hreport using hfuel
    have hheld := inTurn_of_reports hreport
    have hreturn := congrArg (Option.map fun r : List PyValue × Finset Id =>
      ((heap a).kind.assemble repr r.1, r.2.erase a)) hheld
    exact ⟨fuel + 1, _, (jsonSafe_container hk hnot).trans hreturn⟩
  · exact h y hy (TransGen.mono (fun _ _ => valueOf_of_leadsFreely) y y hloop)

/-- What a returning run comes to next returns too. -/
theorem jsonSafe_returns_within {r : PyValue × Finset Id}
    (h : jsonSafe repr heap (fuel + 1) seen x = some r) {y : Id} (hy : y ∈ (heap x).kind.held)
    (hnot : x ∉ seen) : ∃ seen' r', (seen' = seen ∨ seen' = insert x seen) ∧
      jsonSafe repr heap fuel seen' y = some r' := by
  rcases (heap x).kind.branch with ⟨value, hk⟩ | ⟨value, hk⟩ | ⟨inner, hk⟩ | hk | hk
  · simp [hk, PyKind.held] at hy
  · simp [hk, PyKind.held] at hy
  · simp only [hk, PyKind.held, List.mem_singleton] at hy
    subst hy
    exact ⟨seen, r, .inl rfl, (jsonSafe_enum hk).symm.trans h⟩
  · simp [hk, PyKind.held] at hy
  · rw [jsonSafe_container hk hnot] at h
    obtain ⟨inner, hinner, -⟩ := Option.map_eq_some_iff.mp h
    obtain ⟨value, hvalue⟩ :=
      returns_of_inTurn (fun _ _ hitem => jsonSafe_restores hitem) hinner y hy
    exact ⟨insert x seen, _, .inr rfl, hvalue⟩

/-- An enum member on a circle of values is followed round and round, whatever `seen` holds. -/
theorem jsonSafe_enum_circle (h : TransGen (ValueOf heap) x x) :
    jsonSafe repr heap fuel seen x = none := by
  induction fuel generalizing x with
  | zero => rfl
  | succ fuel ih =>
    obtain ⟨inner, hk, hback⟩ := TransGen.head'_iff.mp h
    rw [jsonSafe_enum hk]
    exact ih (TransGen.tail' hback hk)

/-- A run that returns comes to every object it can get to without crossing a recorded one. -/
theorem no_enum_circle_of_returns {r : PyValue × Finset Id}
    (h : jsonSafe repr heap fuel seen x = some r) {y : Id}
    (hy : Avoids (fun a => (heap a).kind.held) seen x y) : ¬ TransGen (ValueOf heap) y y := by
  induction fuel generalizing seen x r with
  | zero => cases h
  | succ fuel ih =>
    rcases hy.cut with rfl | ⟨hnot, c, hc, hrest⟩
    · intro hloop
      rw [jsonSafe_enum_circle hloop] at h
      cases h
    · obtain ⟨seen', r', hseen', hr'⟩ := jsonSafe_returns_within h hc hnot
      rcases hseen' with rfl | rfl
      · exact ih hr' (hrest.mono (Finset.subset_insert x _))
      · exact ih hr' hrest

/-! ## The report of a graph of objects -/

/-- The serializer returns with plain data in which exactly the containers met inside themselves
stand as cycle markers, if and only if no enum member it can come to is its own value, directly or
through the values of other members. -/
theorem json_safe_iff [Fintype Id] (repr : PyValue → String) (heap : Id → PyObject Id) (root : Id) :
    (∃ value, (∃ enough, ∀ fuel ≥ enough, jsonSafe repr heap fuel ∅ root = some (value, ∅)) ∧
      JsonSafe value ∧ Renders repr heap [] root value) ↔
      ∀ x, ReflTransGen (Holds heap) root x → ¬ TransGen (ValueOf heap) x x := by
  constructor
  · rintro ⟨value, ⟨enough, hreturns⟩, -, -⟩ x hx
    exact no_enum_circle_of_returns (hreturns enough le_rfl) (avoids_empty.mpr hx)
  · intro h
    have hreturns : ∃ fuel r, jsonSafe repr heap fuel ∅ root = some r := jsonSafe_returns h
    obtain ⟨enough, ⟨value, after⟩, hr⟩ := hreturns
    obtain rfl : after = ∅ := jsonSafe_restores hr
    have hrenders : Renders repr heap [] root value :=
      jsonSafe_renders (by simp) (by simp) hr
    exact ⟨value, ⟨enough, fun fuel hfuel => jsonSafe_mono hfuel hr⟩, hrenders.json_safe, hrenders⟩

/-- A list that holds an empty tuple twice and then itself. -/
def sharingList : Fin 2 → PyObject (Fin 2)
  | 0 => ⟨⟨"builtins", "list"⟩, .sequence [1, 1, 0]⟩
  | 1 => ⟨⟨"builtins", "tuple"⟩, .sequence []⟩

example : jsonSafe (fun _ => "") sharingList 3 ∅ 0 = some (.list [.list [], .list [],
    .dict [("type", .scalar (.str "builtins.list")), ("cycle", .scalar (.bool true))]], ∅) := by
  rfl

/-- A member of `class Loop(Enum)` whose `__init__` sets `self._value_ = self`. -/
def loopMember : Unit → PyObject Unit := fun _ =>
  ⟨⟨"__main__", "Loop"⟩, .enum ()⟩

theorem loopMember_never_returns :
    ¬ ∃ value, (∃ enough, ∀ fuel ≥ enough,
      jsonSafe (fun _ => "") loopMember fuel ∅ () = some (value, ∅)) ∧
      JsonSafe value ∧ Renders (fun _ => "") loopMember [] () value := by
  rintro ⟨value, ⟨enough, hreturns⟩, -, -⟩
  have hloop : TransGen (ValueOf loopMember) () () := .single rfl
  have hnone : jsonSafe (fun _ => "") loopMember enough ∅ () = none := jsonSafe_enum_circle hloop
  rw [hreturns enough le_rfl] at hnone
  cases hnone

/-! ## The health report of a builder -/

def builderHealthSchema : String := "coalestra.builder-health"

def builderHealthSchemaVersion : ℤ := 1

/-- `BuilderHealth.to_dict` once its arguments are checked: `fields` are the fields of the health
object, `assessment` is the dictionary of its assessment where one is included. -/
def toDict (repr : PyValue → String) (heap : Id → PyObject Id) (fuel : ℕ)
    (fields : List (String × Id)) (assessment : Option PyValue) : Option PyValue := do
  let reports ← fields.mapM fun field =>
    (jsonSafe repr heap fuel ∅ field.2).map fun r => (field.1, r.1)
  return dictOf ([("schema", .scalar (.str builderHealthSchema)),
    ("schema_version", .scalar (.int builderHealthSchemaVersion))] ++ reports ++
    [("assessment", assessment.getD (.scalar .none))])

theorem toDict_of_reports {fields : List (String × Id)} {report : Id → PyValue}
    (h : ∀ field ∈ fields, jsonSafe repr heap fuel ∅ field.2 = some (report field.2, ∅))
    (assessment : Option PyValue) : toDict repr heap fuel fields assessment =
      some (dictOf ([("schema", .scalar (.str builderHealthSchema)),
        ("schema_version", .scalar (.int builderHealthSchemaVersion))] ++
        fields.map (fun field => (field.1, report field.2)) ++
        [("assessment", assessment.getD (.scalar .none))])) := by
  have hreports : (fields.mapM fun field =>
      (jsonSafe repr heap fuel ∅ field.2).map fun r => (field.1, r.1)) =
      some (fields.map fun field => (field.1, report field.2)) := by
    induction fields with
    | nil => rfl
    | cons field rest ih =>
      have hfield := h field (List.mem_cons_self ..)
      have hrest := ih fun other hother => h other (List.mem_cons_of_mem field hother)
      simp [List.mapM_cons, hfield, hrest]
  rw [toDict, hreports]
  rfl

/-- The health report of a builder is plain data. -/
theorem toDict_json_safe [Fintype Id] {fields : List (String × Id)}
    (h : ∀ field ∈ fields, ∀ x, ReflTransGen (Holds heap) field.2 x → ¬ TransGen (ValueOf heap) x x)
    {assessment : Option PyValue} (hassessment : ∀ value ∈ assessment, JsonSafe value) :
    ∃ value, (∃ enough, ∀ fuel ≥ enough, toDict repr heap fuel fields assessment = some value) ∧
      JsonSafe value := by
  have hreturns : ∀ x ∈ fields.map Prod.snd, ∃ fuel r, jsonSafe repr heap fuel ∅ x = some r := by
    intro x hx
    obtain ⟨field, hfield, rfl⟩ := List.mem_map.mp hx
    exact jsonSafe_returns (h field hfield)
  obtain ⟨enough, henough⟩ := exists_common_fuel hreturns
  choose! report hreport using henough
  have hfields : ∀ field ∈ fields, jsonSafe repr heap enough ∅ field.2 = some (report field.2, ∅) :=
    fun field hfield => hreport field.2 (List.mem_map_of_mem hfield)
  refine ⟨_, ⟨enough, fun fuel hfuel => toDict_of_reports (fun field hfield =>
    jsonSafe_mono hfuel (hfields field hfield)) assessment⟩, dictOf_json_safe fun pair hpair => ?_⟩
  simp only [List.mem_append, List.mem_cons, List.not_mem_nil, or_false, List.mem_map] at hpair
  rcases hpair with ((rfl | rfl) | ⟨field, hfield, rfl⟩) | rfl
  · exact .scalar _
  · exact .scalar _
  · have hrenders : Renders repr heap [] field.2 (report field.2) :=
      jsonSafe_renders (by simp) (by simp) (hfields field hfield)
    exact hrenders.json_safe
  · cases assessment with
    | none => exact .scalar _
    | some value => exact hassessment value rfl

end
end Coalestra
