import Mathlib.Data.List.Sort
import Mathlib.Data.Prod.Lex
import Coalestra.Lib.Dict
import Coalestra.Lib.UrlEncoding

/-! # Resource keys

`core/keys.py`: a key is built through a normalizer, which is a set of text transforms. Qualifiers
are stored in normal form, sorted and with distinct names. -/

namespace Coalestra
set_option autoImplicit false
set_option maxHeartbeats 250000

/-- Configurable identity normalization. -/
structure KeyNormalizer where
  namespaceText : String → String
  name : String → String
  subject : String → String
  qualifierName : String → String
  qualifierValue : String → String

def KeyNormalizer.normalizeQualifier (n : KeyNormalizer) (q : String × String) : String × String :=
  (n.qualifierName q.1, n.qualifierValue q.2)

structure KeyNormalizer.Idempotent (n : KeyNormalizer) : Prop where
  namespaceText : ∀ text, n.namespaceText (n.namespaceText text) = n.namespaceText text
  name : ∀ text, n.name (n.name text) = n.name text
  subject : ∀ text, n.subject (n.subject text) = n.subject text
  qualifierName : ∀ text, n.qualifierName (n.qualifierName text) = n.qualifierName text
  qualifierValue : ∀ text, n.qualifierValue (n.qualifierValue text) = n.qualifierValue text

/-- The `ValueError`s of the constructor. -/
inductive KeyError
  | emptyNamespace
  | emptyName
  | emptyQualifierName
  | duplicateQualifierName (name : String)
  deriving DecidableEq, Repr

def KeyError.message : KeyError → String
  | .emptyNamespace => "namespace cannot be empty"
  | .emptyName => "name cannot be empty"
  | .emptyQualifierName => "qualifier name cannot be empty"
  | .duplicateQualifierName name => "duplicate qualifier name: " ++ name

/-- Stored qualifiers: nonempty names in increasing order. -/
structure SortedQualifiers (qualifiers : List (String × String)) : Prop where
  named : ∀ q ∈ qualifiers, q.1 ≠ ""
  sorted : qualifiers.Pairwise fun q q' => q.1 < q'.1

/-- Stable resource identity. -/
structure ResourceKey where
  namespaceText : String
  name : String
  subject : String
  qualifiers : List (String × String)
  normalizer : KeyNormalizer
  namespace_nonempty : namespaceText ≠ ""
  name_nonempty : name ≠ ""
  qualifiers_sorted : SortedQualifiers qualifiers

namespace ResourceKey

/-- `__eq__`: the normalizer does not take part in the comparison. -/
def Same (k k' : ResourceKey) : Prop :=
  k.namespaceText = k'.namespaceText ∧ k.name = k'.name ∧ k.subject = k'.subject ∧
    k.qualifiers = k'.qualifiers

/-- The loop of the constructor over the raw qualifiers. -/
def normalizeQualifiers (n : KeyNormalizer) :
    List (String × String) → List String → Except KeyError (List (String × String))
  | [], _ => .ok []
  | raw :: rest, seen =>
    let q := n.normalizeQualifier raw
    if q.1 = "" then .error .emptyQualifierName
    else if q.1 ∈ seen then .error (.duplicateQualifierName q.1)
    else
      match normalizeQualifiers n rest (q.1 :: seen) with
      | .ok normalized => .ok (q :: normalized)
      | .error e => .error e

/-- `sorted` on pairs of texts. -/
def sortQualifiers (qualifiers : List (String × String)) : List (String × String) :=
  qualifiers.mergeSort fun q q' => decide (toLex q ≤ toLex q')

theorem normalizeQualifiers_ok {n : KeyNormalizer} : ∀ {raw : List (String × String)}
    {seen : List String} {normalized : List (String × String)},
    normalizeQualifiers n raw seen = .ok normalized ↔
      normalized = raw.map n.normalizeQualifier ∧ (∀ q ∈ normalized, q.1 ≠ "") ∧
        (normalized.map Prod.fst).Nodup ∧ ∀ q ∈ normalized, q.1 ∉ seen := by
  intro raw
  induction raw with
  | nil =>
    intro seen normalized
    rw [normalizeQualifiers, Except.ok.injEq]
    constructor
    · rintro rfl
      simp
    · exact fun h => h.1.symm
  | cons raw rest ih =>
    intro seen normalized
    rw [normalizeQualifiers]
    by_cases hempty : (n.normalizeQualifier raw).1 = ""
    · rw [if_pos hempty]
      simp only [reduceCtorEq, List.map_cons, false_iff, not_and]
      rintro rfl hnamed
      exact absurd hempty (hnamed _ List.mem_cons_self)
    · rw [if_neg hempty]
      by_cases hseen : (n.normalizeQualifier raw).1 ∈ seen
      · rw [if_pos hseen]
        simp only [reduceCtorEq, List.map_cons, false_iff, not_and]
        rintro rfl _ _ hnew
        exact hnew _ List.mem_cons_self hseen
      · rw [if_neg hseen]
        have hih := @ih ((n.normalizeQualifier raw).1 :: seen)
        cases hrest : normalizeQualifiers n rest ((n.normalizeQualifier raw).1 :: seen) with
        | error e =>
          simp only [reduceCtorEq, List.map_cons, false_iff, not_and]
          rintro rfl hnamed hnodup hnew
          rw [List.map_cons, List.nodup_cons] at hnodup
          have hok := hih.mpr ⟨rfl, fun q hq => hnamed q (List.mem_cons_of_mem _ hq), hnodup.2,
            fun q hq => ?_⟩
          · rw [hrest] at hok
            cases hok
          · rw [List.mem_cons, not_or]
            refine ⟨fun heq => hnodup.1 ?_, hnew q (List.mem_cons_of_mem _ hq)⟩
            rw [← heq]
            exact List.mem_map_of_mem hq
        | ok tail =>
          obtain ⟨rfl, hnamed, hnodup, hnew⟩ := hih.mp hrest
          simp only [Except.ok.injEq, List.map_cons]
          constructor
          · rintro rfl
            refine ⟨rfl, ?_, ?_, ?_⟩
            · intro q hq
              rcases List.mem_cons.mp hq with rfl | hq
              · exact hempty
              · exact hnamed q hq
            · rw [List.map_cons, List.nodup_cons]
              refine ⟨fun hmem => ?_, hnodup⟩
              obtain ⟨q, hq, heq⟩ := List.mem_map.mp hmem
              exact hnew q hq (heq ▸ List.mem_cons_self)
            · intro q hq
              rcases List.mem_cons.mp hq with rfl | hq
              · exact hseen
              · exact fun h => hnew q hq (List.mem_cons_of_mem _ h)
          · exact fun h => h.1.symm

theorem sortQualifiers_perm (qualifiers : List (String × String)) :
    (sortQualifiers qualifiers).Perm qualifiers := List.mergeSort_perm _ _

/-- Sorting distinct names puts them in increasing order. -/
theorem sortQualifiers_sorted {qualifiers : List (String × String)}
    (hnamed : ∀ q ∈ qualifiers, q.1 ≠ "") (hnodup : (qualifiers.map Prod.fst).Nodup) :
    SortedQualifiers (sortQualifiers qualifiers) := by
  have hperm := sortQualifiers_perm qualifiers
  refine ⟨fun q hq => hnamed q (hperm.mem_iff.mp hq), ?_⟩
  have hsorted : (sortQualifiers qualifiers).Pairwise fun q q' =>
      decide (toLex q ≤ toLex q') = true := by
    refine List.pairwise_mergeSort ?_ ?_ qualifiers
    · intro a b c hab hbc
      simp only [decide_eq_true_eq] at hab hbc ⊢
      exact hab.trans hbc
    · intro a b
      simpa using le_total (toLex a) (toLex b)
  have hdistinct : (sortQualifiers qualifiers).Pairwise fun q q' => q.1 ≠ q'.1 := by
    have hnames := (hperm.map Prod.fst).nodup_iff.mpr hnodup
    rwa [List.Nodup, List.pairwise_map] at hnames
  refine (hsorted.and hdistinct).imp ?_
  rintro q q' ⟨hle, hne⟩
  rw [decide_eq_true_eq, Prod.Lex.toLex_le_toLex] at hle
  exact hle.resolve_right fun heq => hne heq.1

/-- `ResourceKey.__init__`. -/
def new (n : KeyNormalizer) (namespaceText name subject : String)
    (qualifiers : List (String × String)) : Except KeyError ResourceKey :=
  if hnamespace : n.namespaceText namespaceText = "" then .error .emptyNamespace
  else if hname : n.name name = "" then .error .emptyName
  else
    match h : normalizeQualifiers n qualifiers [] with
    | .error e => .error e
    | .ok normalized => .ok
      { namespaceText := n.namespaceText namespaceText
        name := n.name name
        subject := n.subject subject
        qualifiers := sortQualifiers normalized
        normalizer := n
        namespace_nonempty := hnamespace
        name_nonempty := hname
        qualifiers_sorted := sortQualifiers_sorted (normalizeQualifiers_ok.mp h).2.1
          (normalizeQualifiers_ok.mp h).2.2.1 }

/-- `qualifier`, with its default. -/
def qualifier (k : ResourceKey) (name : String) (default : Option String) : Option String :=
  match k.qualifiers.find? fun q => decide (q.1 = k.normalizer.qualifierName name) with
  | some q => some q.2
  | none => default

/-- `merged.update(items)`. -/
def mergeQualifiers (merged : Dict String String) (items : List (String × String)) :
    Dict String String :=
  items.foldl (fun merged item => merged.set item.1 item.2) merged

/-- `dict(self.qualifiers)`. -/
def qualifierDict (k : ResourceKey) : Dict String String :=
  ⟨k.qualifiers, by
    rw [List.Nodup, List.pairwise_map]
    exact k.qualifiers_sorted.sorted.imp fun h => h.ne⟩

/-- `with_qualifiers`; `qualifiers` and `additional` give their items one after the other. -/
def withQualifiers (k : ResourceKey) (qualifiers additional : List (String × String)) :
    Except KeyError ResourceKey :=
  let merged := mergeQualifiers (mergeQualifiers k.qualifierDict qualifiers) additional
  new k.normalizer k.namespaceText k.name k.subject merged.entries

def withoutQualifiers (k : ResourceKey) (names : List String) : Except KeyError ResourceKey :=
  let removed := names.map k.normalizer.qualifierName
  new k.normalizer k.namespaceText k.name k.subject
    (k.qualifiers.filter fun q => decide (q.1 ∉ removed))

/-- `__str__`. -/
def str (k : ResourceKey) : String :=
  let base := k.namespaceText ++ ":" ++ k.name
  let base := if k.subject = "" then base else base ++ ":" ++ k.subject
  if k.qualifiers = [] then base else base ++ "?" ++ urlencode k.qualifiers

/-! ## Keys and their qualifiers -/

/-- Stored qualifiers are determined by their members. -/
theorem qualifiers_ext {l l' : List (String × String)} (h : SortedQualifiers l)
    (h' : SortedQualifiers l') (hmem : ∀ q, q ∈ l ↔ q ∈ l') : l = l' := by
  have hnodup : ∀ {l : List (String × String)}, SortedQualifiers l → l.Nodup := fun h =>
    h.sorted.imp fun hlt heq => absurd (congrArg Prod.fst heq) hlt.ne
  refine List.Perm.eq_of_pairwise ?_ h.sorted h'.sorted
    ((List.perm_ext_iff_of_nodup (hnodup h) (hnodup h')).mpr hmem)
  intro a b _ _ hab hba
  exact absurd hba hab.asymm

theorem names_nodup (k : ResourceKey) : (k.qualifiers.map Prod.fst).Nodup := k.qualifierDict.nodup

theorem qualifier_of_mem {k : ResourceKey} {name value : String} {default : Option String}
    (h : (k.normalizer.qualifierName name, value) ∈ k.qualifiers) :
    k.qualifier name default = some value := by
  unfold qualifier
  cases hfind : k.qualifiers.find? fun q =>
      decide (q.1 = k.normalizer.qualifierName name) with
  | none => simpa using List.find?_eq_none.mp hfind _ h
  | some q =>
    have hname : q.1 = k.normalizer.qualifierName name := by simpa using List.find?_some hfind
    have hsame := List.inj_on_of_nodup_map k.names_nodup (List.mem_of_find?_eq_some hfind) h hname
    rw [hsame]

theorem qualifier_of_absent {k : ResourceKey} {name : String} {default : Option String}
    (h : ∀ value, (k.normalizer.qualifierName name, value) ∉ k.qualifiers) :
    k.qualifier name default = default := by
  unfold qualifier
  cases hfind : k.qualifiers.find? fun q =>
      decide (q.1 = k.normalizer.qualifierName name) with
  | none => rfl
  | some q =>
    obtain ⟨qualifierName, value⟩ := q
    have hname : qualifierName = k.normalizer.qualifierName name := by
      simpa using List.find?_some hfind
    subst hname
    exact absurd (List.mem_of_find?_eq_some hfind) (h value)

/-- A lookup depends on the qualifiers of one name only. -/
theorem qualifier_congr {k k' : ResourceKey} {name : String} {default : Option String}
    (hn : k'.normalizer = k.normalizer)
    (h : ∀ value, (k.normalizer.qualifierName name, value) ∈ k'.qualifiers ↔
      (k.normalizer.qualifierName name, value) ∈ k.qualifiers) :
    k'.qualifier name default = k.qualifier name default := by
  by_cases hex : ∃ value, (k.normalizer.qualifierName name, value) ∈ k.qualifiers
  · obtain ⟨value, hvalue⟩ := hex
    rw [qualifier_of_mem hvalue, qualifier_of_mem (by rw [hn]; exact (h value).mpr hvalue)]
  · rw [not_exists] at hex
    rw [qualifier_of_absent hex, qualifier_of_absent fun value => ?_]
    rw [hn, h]
    exact hex value

/-- What the constructor makes of its arguments. -/
structure BuiltFrom (n : KeyNormalizer) (namespaceText name subject : String)
    (raw : List (String × String)) (k : ResourceKey) : Prop where
  namespaceText : k.namespaceText = n.namespaceText namespaceText
  name : k.name = n.name name
  subject : k.subject = n.subject subject
  normalizer : k.normalizer = n
  qualifiers : ∀ q, q ∈ k.qualifiers ↔ q ∈ raw.map n.normalizeQualifier

section
variable {n : KeyNormalizer} {namespaceText name subject : String}
  {raw : List (String × String)} {k : ResourceKey}

theorem new_spec (h : new n namespaceText name subject raw = .ok k) :
    BuiltFrom n namespaceText name subject raw k ∧
      ((raw.map n.normalizeQualifier).map Prod.fst).Nodup := by
  unfold new at h
  split at h
  · cases h
  · split at h
    · cases h
    · split at h
      · cases h
      · rename_i normalized hnormalized
        obtain ⟨rfl, _, hnodup, _⟩ := normalizeQualifiers_ok.mp hnormalized
        cases h
        exact ⟨⟨rfl, rfl, rfl, rfl, fun q => (sortQualifiers_perm _).mem_iff⟩, hnodup⟩

/-- Arguments that the constructor accepts. -/
theorem new_accepts (hnamespace : n.namespaceText namespaceText ≠ "") (hname : n.name name ≠ "")
    (hnamed : ∀ q ∈ raw.map n.normalizeQualifier, q.1 ≠ "")
    (hnodup : ((raw.map n.normalizeQualifier).map Prod.fst).Nodup) :
    ∃ k, new n namespaceText name subject raw = .ok k := by
  have hok : normalizeQualifiers n raw [] = .ok (raw.map n.normalizeQualifier) :=
    normalizeQualifiers_ok.mpr ⟨rfl, hnamed, hnodup, fun _ _ => List.not_mem_nil⟩
  unfold new
  rw [dif_neg hnamespace, dif_neg hname]
  split
  · rename_i e herror
    rw [hok] at herror
    cases herror
  · exact ⟨_, rfl⟩

/-- Every key is what the constructor makes of its fields when nothing is normalized. -/
theorem new_identity (k : ResourceKey) : ∃ k', new ⟨id, id, id, id, id⟩ k.namespaceText k.name
    k.subject k.qualifiers = .ok k' ∧ k'.Same k := by
  have hmap : k.qualifiers.map (KeyNormalizer.normalizeQualifier ⟨id, id, id, id, id⟩) =
      k.qualifiers := List.map_id _
  obtain ⟨k', hk'⟩ := @new_accepts ⟨id, id, id, id, id⟩ k.namespaceText k.name k.subject
    k.qualifiers k.namespace_nonempty k.name_nonempty
    (by rw [hmap]; exact k.qualifiers_sorted.named) (by rw [hmap]; exact k.names_nodup)
  have hbuilt := (new_spec hk').1
  refine ⟨k', hk', hbuilt.namespaceText, hbuilt.name, hbuilt.subject,
    qualifiers_ext k'.qualifiers_sorted k.qualifiers_sorted fun q => ?_⟩
  rw [hbuilt.qualifiers, hmap]

/-! ## Updates -/

/-- The fields of the key are in normal form already. -/
structure Normal (k : ResourceKey) : Prop where
  idempotent : k.normalizer.Idempotent
  namespaceText : k.normalizer.namespaceText k.namespaceText = k.namespaceText
  name : k.normalizer.name k.name = k.name
  subject : k.normalizer.subject k.subject = k.subject
  qualifiers : ∀ q ∈ k.qualifiers, k.normalizer.normalizeQualifier q = q

theorem new_normal (hidempotent : n.Idempotent)
    (h : new n namespaceText name subject raw = .ok k) : k.Normal := by
  have hbuilt := (new_spec h).1
  obtain ⟨hnamespace, hname, hsubject, hn, hqualifiers⟩ := hbuilt
  refine ⟨hn ▸ hidempotent, ?_, ?_, ?_, ?_⟩
  · rw [hn, hnamespace, hidempotent.namespaceText]
  · rw [hn, hname, hidempotent.name]
  · rw [hn, hsubject, hidempotent.subject]
  · intro q hq
    obtain ⟨raw, _, rfl⟩ := List.mem_map.mp ((hqualifiers q).mp hq)
    rw [hn]
    exact Prod.ext (hidempotent.qualifierName _) (hidempotent.qualifierValue _)

/-- The key `k'` has the fields of `k` and the qualifiers that meet `P`. -/
structure Requalified (k : ResourceKey) (P : String × String → Prop) (k' : ResourceKey) : Prop where
  namespaceText : k'.namespaceText = k.namespaceText
  name : k'.name = k.name
  subject : k'.subject = k.subject
  normalizer : k'.normalizer = k.normalizer
  qualifiers : ∀ q, q ∈ k'.qualifiers ↔ P q

theorem Requalified.same {P P' : String × String → Prop} {k' k'' : ResourceKey}
    (h : k.Requalified P k') (h' : k.Requalified P' k'') (hP : ∀ q, P q ↔ P' q) :
    k'.Same k'' := by
  refine ⟨h.namespaceText.trans h'.namespaceText.symm, h.name.trans h'.name.symm,
    h.subject.trans h'.subject.symm,
    qualifiers_ext k'.qualifiers_sorted k''.qualifiers_sorted fun q => ?_⟩
  rw [h.qualifiers, h'.qualifiers, hP]

theorem Requalified.trans {P P' : String × String → Prop} {k' k'' : ResourceKey}
    (h : k.Requalified P k') (h' : k'.Requalified P' k'') : k.Requalified P' k'' :=
  ⟨h'.namespaceText.trans h.namespaceText, h'.name.trans h.name, h'.subject.trans h.subject,
    h'.normalizer.trans h.normalizer, h'.qualifiers⟩

theorem Normal.built (hk : k.Normal) {k' : ResourceKey} {P : String × String → Prop}
    (h : BuiltFrom k.normalizer k.namespaceText k.name k.subject raw k')
    (hraw : ∀ q, q ∈ raw.map k.normalizer.normalizeQualifier ↔ P q) : k.Requalified P k' :=
  ⟨h.namespaceText.trans hk.namespaceText, h.name.trans hk.name, h.subject.trans hk.subject,
    h.normalizer, fun q => (h.qualifiers q).trans (hraw q)⟩

theorem Normal.name_eq (hk : k.Normal) {q : String × String} (hq : q ∈ k.qualifiers) :
    k.normalizer.qualifierName q.1 = q.1 := congrArg Prod.fst (hk.qualifiers q hq)

/-- The entries of the merged dictionary. -/
theorem mem_merged {k : ResourceKey} {m v : String} {q : String × String} :
    q ∈ (k.qualifierDict.set m v).entries ↔ q = (m, v) ∨ (q ∈ k.qualifiers ∧ q.1 ≠ m) := by
  obtain ⟨name, value⟩ := q
  rw [Dict.mem_entries, Dict.get?_set]
  have hmem : k.qualifierDict.get? name = some value ↔ (name, value) ∈ k.qualifiers :=
    Dict.mem_entries.symm
  by_cases hname : name = m
  · simp [hname, eq_comm]
  · simp [hname, hmem]

/-- An update under a name in normal form replaces the qualifier of that name. -/
theorem Normal.withQualifiers (hk : k.Normal) {m : String} (hm : k.normalizer.qualifierName m = m)
    (hne : m ≠ "") (v : String) : ∃ k', k.withQualifiers [(m, v)] [] = .ok k' ∧
      k.Requalified (fun q => q = (m, k.normalizer.qualifierValue v) ∨
        (q ∈ k.qualifiers ∧ q.1 ≠ m)) k' := by
  have hnames : ((k.qualifierDict.set m v).entries.map k.normalizer.normalizeQualifier).map
      Prod.fst = (k.qualifierDict.set m v).entries.map Prod.fst := by
    rw [List.map_map]
    refine List.map_congr_left fun q hq => ?_
    rcases mem_merged.mp hq with rfl | ⟨hq, _⟩
    · exact hm
    · exact hk.name_eq hq
  have hraw : ∀ q, q ∈ (k.qualifierDict.set m v).entries.map k.normalizer.normalizeQualifier ↔
      q = (m, k.normalizer.qualifierValue v) ∨ (q ∈ k.qualifiers ∧ q.1 ≠ m) := by
    intro q
    rw [List.mem_map]
    constructor
    · rintro ⟨raw, hraw, rfl⟩
      rcases mem_merged.mp hraw with rfl | ⟨hmem, hother⟩
      · exact .inl (Prod.ext hm rfl)
      · rw [hk.qualifiers raw hmem]
        exact .inr ⟨hmem, hother⟩
    · rintro (rfl | ⟨hmem, hother⟩)
      · exact ⟨(m, v), mem_merged.mpr (.inl rfl), Prod.ext hm rfl⟩
      · exact ⟨q, mem_merged.mpr (.inr ⟨hmem, hother⟩), hk.qualifiers q hmem⟩
  obtain ⟨k', hk'⟩ := @new_accepts k.normalizer k.namespaceText k.name k.subject
    (k.qualifierDict.set m v).entries
    (by rw [hk.namespaceText]; exact k.namespace_nonempty)
    (by rw [hk.name]; exact k.name_nonempty)
    (by
      intro q hq
      rcases (hraw q).mp hq with rfl | ⟨hmem, _⟩
      · exact hne
      · exact k.qualifiers_sorted.named q hmem)
    (by rw [hnames]; exact (k.qualifierDict.set m v).nodup)
  exact ⟨k', hk', hk.built (new_spec hk').1 hraw⟩

/-- An update under a name that is not in normal form fails once that name is taken. -/
theorem Normal.withQualifiers_duplicate (hk : k.Normal) {m value : String}
    (hm : k.normalizer.qualifierName m ≠ m)
    (hmem : (k.normalizer.qualifierName m, value) ∈ k.qualifiers) (v : String) (k' : ResourceKey) :
    k.withQualifiers [(m, v)] [] ≠ .ok k' := by
  intro h
  have hnodup := (new_spec h).2
  have habsent : m ∉ k.qualifierDict.keys := by
    intro hin
    obtain ⟨q, hq, rfl⟩ := List.mem_map.mp hin
    exact hm (hk.name_eq hq)
  change (((k.qualifierDict.set m v).entries.map _).map Prod.fst).Nodup at hnodup
  rw [Dict.entries_set_new habsent, List.map_append, List.map_append, List.nodup_append] at hnodup
  refine hnodup.2.2 (k.normalizer.qualifierName m) ?_ _ (by simp; rfl) rfl
  rw [List.map_map, List.mem_map]
  exact ⟨_, hmem, congrArg Prod.fst (hk.qualifiers _ hmem)⟩

theorem Normal.withoutQualifiers (hk : k.Normal) (names : List String) :
    ∃ k', k.withoutQualifiers names = .ok k' ∧ k.Requalified (fun q => q ∈ k.qualifiers ∧
      q.1 ∉ names.map k.normalizer.qualifierName) k' := by
  have hsame : (k.qualifiers.filter fun q =>
      decide (q.1 ∉ names.map k.normalizer.qualifierName)).map k.normalizer.normalizeQualifier =
        k.qualifiers.filter fun q => decide (q.1 ∉ names.map k.normalizer.qualifierName) := by
    refine (List.map_congr_left fun q hq => ?_).trans (List.map_id _)
    exact hk.qualifiers q (List.mem_filter.mp hq).1
  obtain ⟨k', hk'⟩ := @new_accepts k.normalizer k.namespaceText k.name k.subject
    (k.qualifiers.filter fun q => decide (q.1 ∉ names.map k.normalizer.qualifierName))
    (by rw [hk.namespaceText]; exact k.namespace_nonempty)
    (by rw [hk.name]; exact k.name_nonempty)
    (by
      rw [hsame]
      exact fun q hq => k.qualifiers_sorted.named q (List.mem_filter.mp hq).1)
    (by
      rw [hsame]
      exact k.names_nodup.sublist (List.filter_sublist.map Prod.fst))
  refine ⟨k', hk', hk.built (new_spec hk').1 fun q => ?_⟩
  rw [hsame, List.mem_filter, decide_eq_true_eq]

/-- `with_qualifiers` puts one qualifier as a map does. -/
structure PutsLikeMap (k : ResourceKey) (m v : String) (k' : ResourceKey) : Prop where
  updated : k.withQualifiers [(m, v)] [] = .ok k'
  put : ∀ default, k'.qualifier m default = some (k.normalizer.qualifierValue v)
  kept : ∀ other default, k.normalizer.qualifierName other ≠ k.normalizer.qualifierName m →
    k'.qualifier other default = k.qualifier other default
  overridden : ∀ w, ∃ k'' k₁, k'.withQualifiers [(m, w)] [] = .ok k'' ∧
    k.withQualifiers [(m, w)] [] = .ok k₁ ∧ k''.Same k₁
  removed : ∃ r r', k'.withoutQualifiers [m] = .ok r ∧ k.withoutQualifiers [m] = .ok r' ∧ r.Same r'

/-- Under another spelling of the name the second update meets the first one as a duplicate. -/
theorem PutsLikeMap.spelling {m v : String} {k' : ResourceKey} (hk : k.Normal)
    (hput : k.PutsLikeMap m v k') : k.normalizer.qualifierName m = m := by
  by_contra hspelling
  have hbuilt := (new_spec hput.updated).1
  have hnormal' := new_normal hk.idempotent hput.updated
  obtain ⟨k'', _, hagain, _⟩ := hput.overridden v
  have hspelling' : k'.normalizer.qualifierName m ≠ m := by rwa [hbuilt.normalizer]
  have htaken : (k'.normalizer.qualifierName m, k.normalizer.qualifierValue v) ∈
      k'.qualifiers := by
    rw [hbuilt.normalizer, hbuilt.qualifiers]
    exact List.mem_map_of_mem (mem_merged.mpr (.inl rfl))
  exact hnormal'.withQualifiers_duplicate hspelling' htaken v k'' hagain

theorem Normal.putsLikeMap (hnormal : k.Normal) {m : String}
    (hspelling : k.normalizer.qualifierName m = m) (hm : m ≠ "") (v : String) :
    ∃ k', k.PutsLikeMap m v k' := by
  obtain ⟨k', hupdated, hfields⟩ := hnormal.withQualifiers hspelling hm v
  have hnormal' := new_normal hnormal.idempotent hupdated
  have hn' := hfields.normalizer
  have hspelling' : k'.normalizer.qualifierName m = m := by rw [hn', hspelling]
  refine ⟨k', hupdated, fun default => ?_, fun other default hother => ?_, fun w => ?_, ?_⟩
  · refine qualifier_of_mem ((hfields.qualifiers _).mpr (.inl ?_))
    rw [hspelling']
  · refine qualifier_congr hn' fun value => ?_
    rw [hfields.qualifiers, hspelling] at *
    simp [hother]
  · obtain ⟨k'', hagain, hfields'⟩ := hnormal'.withQualifiers hspelling' hm w
    obtain ⟨k₁, honce, hfields₁⟩ := hnormal.withQualifiers hspelling hm w
    refine ⟨k'', k₁, hagain, honce, (hfields.trans hfields').same hfields₁ fun q => ?_⟩
    rw [hn', hfields.qualifiers]
    constructor
    · rintro (rfl | ⟨rfl | hold, hother⟩)
      · exact .inl rfl
      · exact absurd rfl hother
      · exact .inr hold
    · rintro (rfl | hold)
      · exact .inl rfl
      · exact .inr ⟨.inr hold, hold.2⟩
  · obtain ⟨r, hr, hfields'⟩ := hnormal'.withoutQualifiers [m]
    obtain ⟨r', hr', hfields₁⟩ := hnormal.withoutQualifiers [m]
    refine ⟨r, r', hr, hr', (hfields.trans hfields').same hfields₁ fun q => ?_⟩
    rw [hn', hfields.qualifiers, List.map_singleton, List.mem_singleton, hspelling]
    constructor
    · rintro ⟨rfl | hold, hother⟩
      · exact absurd rfl hother
      · exact hold
    · rintro ⟨hmem, hother⟩
      exact ⟨.inr ⟨hmem, hother⟩, hother⟩

/-- Updates of a qualifier are those of a map exactly when its name is given in normal form. -/
theorem qualifier_updates_iff (hidempotent : n.Idempotent)
    (hk : new n namespaceText name subject raw = .ok k) {m : String}
    (hm : n.qualifierName m ≠ "") (v : String) :
    (∃ k', k.PutsLikeMap m v k') ↔ n.qualifierName m = m := by
  have hnormal := new_normal hidempotent hk
  have hn : k.normalizer = n := (new_spec hk).1.normalizer
  subst hn
  constructor
  · rintro ⟨k', hput⟩
    exact hput.spelling hnormal
  · intro hspelling
    rw [hspelling] at hm
    exact hnormal.putsLikeMap hspelling hm v

end

/-! ## Another spelling -/

/-- A normalizer that ignores the case of a qualifier's name. -/
def lowerNames : KeyNormalizer := ⟨id, id, id, String.toLower, id⟩

theorem toLower_toLower (c : Char) : c.toLower.toLower = c.toLower := by
  unfold Char.toLower
  split
  · rename_i hupper
    obtain ⟨hlow, hhigh⟩ := hupper
    rw [dif_neg]
    rintro ⟨_, hagain⟩
    have ha : 'A'.val.toNat = 65 := rfl
    have hz : 'Z'.val.toNat = 90 := rfl
    have hd : ('a'.val - 'A'.val).toNat = 32 := rfl
    simp only [ge_iff_le, UInt32.le_iff_toNat_le, UInt32.toNat_add, ha, hz, hd] at hlow hhigh hagain
    omega
  · simp

theorem lowerNames_idempotent : lowerNames.Idempotent where
  namespaceText := fun _ => rfl
  name := fun _ => rfl
  subject := fun _ => rfl
  qualifierName := fun text => by
    have hlower : ∀ text : String, lowerNames.qualifierName text = text.map Char.toLower :=
      fun _ => rfl
    rw [hlower, hlower, ← String.toList_inj]
    simp [String.toList_map, toLower_toLower]
  qualifierValue := fun _ => rfl

theorem candles_accepted : ∃ k, new lowerNames "market" "candles" "BTCUSDT"
    [("interval", "1m")] = .ok k :=
  new_accepts (by decide) (by decide) (by decide +kernel) (by decide +kernel)

theorem qualifier_updates_lower : ∃ k, new lowerNames "market" "candles" "BTCUSDT"
    [("interval", "1m")] = .ok k ∧ ∃ k', k.PutsLikeMap "interval" "5m" k' := by
  obtain ⟨k, hk⟩ := candles_accepted
  exact ⟨k, hk, (qualifier_updates_iff lowerNames_idempotent hk (by decide +kernel) "5m").mpr
    (by decide +kernel)⟩

/-- The update `{"Interval": "5m"}` is refused: the key has `interval` already. -/
theorem other_spelling_counterexample :
    ¬ ∀ (n : KeyNormalizer) (namespaceText name subject : String) (raw : List (String × String))
      (k : ResourceKey) (m v : String), n.Idempotent →
        new n namespaceText name subject raw = .ok k → n.qualifierName m ≠ "" →
        ∃ k', k.PutsLikeMap m v k' := by
  intro h
  obtain ⟨k, hk⟩ := candles_accepted
  have hn : k.normalizer = lowerNames := (new_spec hk).1.normalizer
  obtain ⟨k', hput⟩ := h lowerNames "market" "candles" "BTCUSDT" _ k "Interval" "5m"
    lowerNames_idempotent hk (by decide +kernel)
  have hspelling := hput.spelling (new_normal lowerNames_idempotent hk)
  rw [hn] at hspelling
  exact absurd hspelling (by decide +kernel)

end ResourceKey
end Coalestra
