import Coalestra.Core.Keys
import Coalestra.Resilience.CircuitBreaker

/-! # Circuits of one resource

With the scope of a resource `identity_for` takes the text of the key as its discriminator. The text
joins the parts with `:` and `?`, which the parts may contain themselves. -/

namespace Coalestra
set_option autoImplicit false
set_option maxHeartbeats 250000

instance : KeyText ResourceKey :=
  ⟨ResourceKey.namespaceText, ResourceKey.name, ResourceKey.subject, ResourceKey.str⟩

namespace ResourceKey

theorem identityFor_resource {source : String} {k k' : ResourceKey} :
    identityFor source k .ofResource = identityFor source k' .ofResource ↔ k.str = k'.str := by
  simp [identityFor, KeyText.str]

theorem Same.str {k k' : ResourceKey} (h : k.Same k') : k.str = k'.str := by
  obtain ⟨hnamespace, hname, hsubject, hqualifiers⟩ := h
  rw [ResourceKey.str, ResourceKey.str, hnamespace, hname, hsubject, hqualifiers]

/-- The part of the text behind the name. -/
def tailText (k : ResourceKey) : List Char :=
  (if k.subject = "" then [] else ':' :: k.subject.toList) ++
    if k.qualifiers = [] then [] else '?' :: (urlencode k.qualifiers).toList

theorem str_toList (k : ResourceKey) :
    k.str.toList = k.namespaceText.toList ++ ':' :: (k.name.toList ++ k.tailText) := by
  unfold str tailText
  split <;> split <;> simp

/-! ## Keys whose text has one reading -/

/-- The text has one separator, and its end does not read as a query. -/
structure Plain (k : ResourceKey) : Prop where
  subject : k.subject = ""
  qualifiers : k.qualifiers = []
  namespaceText : ':' ∉ k.namespaceText.toList.tail
  name : ':' ∉ k.name.toList.dropLast
  query : ∀ (name : String) (qualifiers : List (String × String)), name ≠ "" → qualifiers ≠ [] →
    SortedQualifiers qualifiers → k.name ≠ name ++ "?" ++ urlencode qualifiers

/-- A separator inside a text can only be the one that joins its two parts. -/
theorem split_unique {p p' r r' : List Char} (hp : ':' ∉ p.tail) (hr : ':' ∉ r.dropLast)
    (hp' : p' ≠ []) (hr' : r' ≠ []) (h : p ++ ':' :: r = p' ++ ':' :: r') : p = p' ∧ r = r' := by
  rcases List.append_eq_append_iff.mp h with ⟨q, rfl, hq⟩ | ⟨q, rfl, hq⟩
  · cases q with
    | nil => simpa using hq
    | cons x q =>
      rw [List.cons_append, List.cons.injEq] at hq
      obtain ⟨_, rfl⟩ := hq
      rw [List.dropLast_append_of_ne_nil (by simp), List.mem_append, not_or] at hr
      rw [List.dropLast_cons_of_ne_nil hr'] at hr
      simp at hr
  · cases q with
    | nil => simpa using hq.symm
    | cons x q =>
      rw [List.cons_append, List.cons.injEq] at hq
      obtain ⟨rfl, _⟩ := hq
      rw [List.tail_append_of_ne_nil hp'] at hp
      simp at hp

theorem toList_ne_nil {text : String} (h : text ≠ "") : text.toList ≠ [] := by
  intro hnil
  exact h (by rw [← String.toList_inj, hnil]; rfl)

theorem Plain.unique {k k' : ResourceKey} (hk : k.Plain) (h : k.str = k'.str) : k.Same k' := by
  have htail : k.tailText = [] := by simp [tailText, hk.subject, hk.qualifiers]
  have hlist := congrArg String.toList h
  rw [str_toList, str_toList, htail, List.append_nil] at hlist
  have hname' := toList_ne_nil k'.name_nonempty
  obtain ⟨hnamespace, hname⟩ := split_unique hk.namespaceText hk.name
    (toList_ne_nil k'.namespace_nonempty) (by simp [hname']) hlist
  have hsubject : k'.subject = "" := by
    by_contra hsubject
    have hseparator := hk.name
    rw [hname, tailText, if_neg hsubject, List.dropLast_append_of_ne_nil (by simp),
      List.cons_append, List.dropLast_cons_of_ne_nil (by simp [toList_ne_nil hsubject])]
      at hseparator
    simp at hseparator
  have hqualifiers : k'.qualifiers = [] := by
    by_contra hqualifiers
    refine hk.query k'.name k'.qualifiers k'.name_nonempty hqualifiers k'.qualifiers_sorted ?_
    rw [← String.toList_inj, hname, tailText, if_pos hsubject, if_neg hqualifiers]
    simp
  rw [tailText, if_pos hsubject, if_pos hqualifiers, List.append_nil, List.append_nil] at hname
  exact ⟨String.toList_inj.mp hnamespace, String.toList_inj.mp hname,
    hk.subject.trans hsubject.symm, hk.qualifiers.trans hqualifiers.symm⟩

/-! ## Keys whose text has another reading -/

theorem append_nonempty {text rest : String} (h : rest ≠ "") : text ++ rest ≠ "" := by
  intro hempty
  have hlist := congrArg String.toList hempty
  rw [String.toList_append] at hlist
  exact toList_ne_nil h (List.append_eq_nil_iff.mp hlist).2

theorem str_eq {k k' : ResourceKey} (h : k.namespaceText.toList ++ ':' :: (k.name.toList ++
    k.tailText) = k'.namespaceText.toList ++ ':' :: (k'.name.toList ++ k'.tailText)) :
    k.str = k'.str := by
  rw [← String.toList_inj, str_toList, str_toList, h]

/-- A subject can be read as the end of the name. -/
theorem subject_shares {k : ResourceKey} (h : k.subject ≠ "") :
    ∃ k' : ResourceKey, k.str = k'.str ∧ ¬ k.Same k' := by
  refine ⟨{ k with
    name := k.name ++ (":" ++ k.subject)
    subject := ""
    name_nonempty := append_nonempty (append_nonempty h) }, str_eq ?_, ?_⟩
  · simp [tailText, h]
  · exact fun hsame => h hsame.2.2.1

/-- The query can be read as the end of the name. -/
theorem query_shares {k : ResourceKey} (hsubject : k.subject = "") (h : k.qualifiers ≠ []) :
    ∃ k' : ResourceKey, k.str = k'.str ∧ ¬ k.Same k' := by
  refine ⟨{ k with
    name := k.name ++ ("?" ++ urlencode k.qualifiers)
    qualifiers := []
    name_nonempty := append_nonempty fun hempty => ?_
    qualifiers_sorted := ⟨nofun, .nil⟩ }, str_eq ?_, ?_⟩
  · simp [← String.toList_inj] at hempty
  · simp [tailText, hsubject, h]
  · exact fun hsame => h hsame.2.2.2

/-- A separator inside a part can be read as the one between namespace and name. -/
theorem separator_shares {k : ResourceKey} (hsubject : k.subject = "") (hquery : k.qualifiers = [])
    {p r : List Char} (hp : p ≠ []) (hr : r ≠ []) (hother : p ≠ k.namespaceText.toList)
    (h : k.namespaceText.toList ++ ':' :: k.name.toList = p ++ ':' :: r) :
    ∃ k' : ResourceKey, k.str = k'.str ∧ ¬ k.Same k' := by
  have hnonempty : ∀ {l : List Char}, l ≠ [] → String.ofList l ≠ "" := fun hl hempty =>
    hl (by simpa [← String.toList_inj] using hempty)
  refine ⟨{ k with
    namespaceText := String.ofList p
    name := String.ofList r
    namespace_nonempty := hnonempty hp
    name_nonempty := hnonempty hr }, str_eq ?_, ?_⟩
  · simpa [tailText, hsubject, hquery] using h
  · intro hsame
    refine hother ?_
    rw [hsame.1]
    simp

/-- A name that ends like a query can be read with that query. -/
theorem name_shares {k : ResourceKey} (hsubject : k.subject = "") (hquery : k.qualifiers = [])
    {name : String} {qualifiers : List (String × String)} (hname : name ≠ "")
    (hqualifiers : qualifiers ≠ []) (hsorted : SortedQualifiers qualifiers)
    (h : k.name = name ++ "?" ++ urlencode qualifiers) :
    ∃ k' : ResourceKey, k.str = k'.str ∧ ¬ k.Same k' := by
  refine ⟨{ k with
    name := name
    qualifiers := qualifiers
    name_nonempty := hname
    qualifiers_sorted := hsorted }, str_eq ?_, ?_⟩
  · simp [tailText, hsubject, hquery, hqualifiers, h]
  · exact fun hsame => hqualifiers (hquery ▸ hsame.2.2.2).symm

/-- Every key that is not plain shares its text with another one. -/
theorem exists_same_text {k : ResourceKey} (hk : ¬ k.Plain) :
    ∃ k' : ResourceKey, k.str = k'.str ∧ ¬ k.Same k' := by
  by_cases hsubject : k.subject = ""
  · by_cases hquery : k.qualifiers = []
    · by_cases hnamespace : ':' ∈ k.namespaceText.toList.tail
      · obtain ⟨a, b, hab⟩ := List.append_of_mem hnamespace
        cases htext : k.namespaceText.toList with
        | nil => simp [htext] at hnamespace
        | cons c rest =>
          rw [htext, List.tail_cons] at hab
          subst hab
          refine separator_shares (p := c :: a) (r := b ++ ':' :: k.name.toList) hsubject hquery
            (by simp) (by simp) ?_ ?_
          · rw [htext]
            simp
          · rw [htext]
            simp
      · by_cases hname : ':' ∈ k.name.toList.dropLast
        · obtain ⟨a, b, hab⟩ := List.append_of_mem hname
          have hlast := List.dropLast_append_getLast (toList_ne_nil k.name_nonempty)
          rw [hab] at hlast
          refine separator_shares (p := k.namespaceText.toList ++ ':' :: a)
            (r := b ++ [k.name.toList.getLast (toList_ne_nil k.name_nonempty)]) hsubject hquery
            (by simp) (by simp) (by simp) ?_
          conv_lhs => rw [← hlast]
          simp
        · by_contra hnone
          refine hk ⟨hsubject, hquery, hnamespace, hname, fun name qualifiers hne hqs hsorted h =>
            hnone (name_shares hsubject hquery hne hqs hsorted h)⟩
    · exact query_shares hsubject hquery
  · exact subject_shares hsubject

/-! ## Keys without separators in their parts -/

/-- No part contains the separator that ends it. -/
structure Separated (k : ResourceKey) : Prop where
  namespaceText : ':' ∉ k.namespaceText.toList
  name : ':' ∉ k.name.toList ∧ '?' ∉ k.name.toList
  subject : '?' ∉ k.subject.toList

/-- A word ends where its first separator stands. -/
theorem word_unique {isWord : Char → Bool} {w w' t t' : List Char} (hw : ∀ c ∈ w, isWord c = true)
    (hw' : ∀ c ∈ w', isWord c = true) (ht : ∀ c ∈ t.head?, isWord c = false)
    (ht' : ∀ c ∈ t'.head?, isWord c = false) (h : w ++ t = w' ++ t') : w = w' ∧ t = t' := by
  have htake : ∀ {w t : List Char}, (∀ c ∈ w, isWord c = true) →
      (∀ c ∈ t.head?, isWord c = false) → (w ++ t).takeWhile isWord = w := by
    intro w t hw ht
    rw [List.takeWhile_append_of_pos hw]
    cases t with
    | nil => simp
    | cons c t => simp [ht c rfl]
  have hsame : w = w' := by rw [← htake hw ht, h, htake hw' ht']
  subst hsame
  exact ⟨rfl, List.append_cancel_left h⟩

theorem Separated.unique {k k' : ResourceKey} (hk : k.Separated) (hk' : k'.Separated)
    (h : k.str = k'.str) : k.Same k' := by
  have hlist := congrArg String.toList h
  rw [str_toList, str_toList] at hlist
  obtain ⟨hnamespace, hrest⟩ :=
    append_separator_inj hk.namespaceText hk'.namespaceText hlist
  have hword : ∀ {k : ResourceKey}, k.Separated →
      ∀ c ∈ k.name.toList, (c != ':' && c != '?') = true := by
    intro k hk c hc
    simp only [Bool.and_eq_true, bne_iff_ne]
    exact ⟨fun h => hk.name.1 (h ▸ hc), fun h => hk.name.2 (h ▸ hc)⟩
  have htail : ∀ k : ResourceKey, ∀ c ∈ k.tailText.head?, (c != ':' && c != '?') = false := by
    intro k c hc
    unfold tailText at hc
    split at hc <;> split at hc <;> simp at hc <;> simp [← hc]
  obtain ⟨hname, htexts⟩ := word_unique (hword hk) (hword hk') (htail k) (htail k') hrest
  unfold tailText at htexts
  have hsubjectWord : ∀ {k : ResourceKey}, k.Separated →
      ∀ c ∈ (if k.subject = "" then [] else ':' :: k.subject.toList), (c != '?') = true := by
    intro k hk c hc
    rw [bne_iff_ne]
    rintro rfl
    split at hc
    · cases hc
    · simp [hk.subject] at hc
  have hquery : ∀ k : ResourceKey, ∀ c ∈ (if k.qualifiers = [] then []
      else '?' :: (urlencode k.qualifiers).toList).head?, (c != '?') = false := by
    intro k c hc
    split at hc <;> simp at hc
    simp [← hc]
  obtain ⟨hsubject, hqueries⟩ := word_unique (hsubjectWord hk) (hsubjectWord hk') (hquery k)
    (hquery k') htexts
  refine ⟨String.toList_inj.mp hnamespace, String.toList_inj.mp hname, ?_, ?_⟩
  · split at hsubject <;> split at hsubject
    · simp_all
    · cases hsubject
    · cases hsubject
    · exact String.toList_inj.mp (List.cons.inj hsubject).2
  · split at hqueries <;> split at hqueries
    · simp_all
    · cases hqueries
    · cases hqueries
    · exact urlencode_injective (String.toList_inj.mp (List.cons.inj hqueries).2)

/-! ## Shared circuits -/

/-- A key has its circuit for itself exactly when it is plain; keys without separators in their
parts never share one. -/
theorem resource_circuit_own_iff (source : String) :
    (∀ k : ResourceKey, (∀ k' : ResourceKey,
      identityFor source k .ofResource = identityFor source k' .ofResource ↔ k.Same k') ↔
        k.Plain) ∧
    ∀ k k' : ResourceKey, k.Separated → k'.Separated →
      (identityFor source k .ofResource = identityFor source k' .ofResource ↔ k.Same k') := by
  refine ⟨fun k => ⟨fun h => ?_, fun hk k' => ?_⟩, fun k k' hk hk' => ?_⟩
  · by_contra hk
    obtain ⟨k', hstr, hother⟩ := exists_same_text hk
    exact hother ((h k').mp (identityFor_resource.mpr hstr))
  · exact identityFor_resource.trans ⟨hk.unique, Same.str⟩
  · exact identityFor_resource.trans ⟨hk.unique hk', Same.str⟩

def unchanged : KeyNormalizer := ⟨id, id, id, id, id⟩

def priceOf (subject : String) : ResourceKey :=
  ⟨"market", "price", subject, [], unchanged, by decide, by decide, ⟨nofun, .nil⟩⟩

/-- The text of this key is that of `priceOf "BTC"`. -/
def priceNamed : ResourceKey :=
  ⟨"market", "price:BTC", "", [], unchanged, by decide, by decide, ⟨nofun, .nil⟩⟩

theorem resource_circuit_own_subjects :
    (identityFor "rest" (priceOf "BTC") .ofResource =
      identityFor "rest" (priceOf "ETH") .ofResource ↔ (priceOf "BTC").Same (priceOf "ETH")) ∧
    ¬ (priceOf "BTC").Plain ∧
    ∃ k', ¬ (identityFor "rest" (priceOf "BTC") .ofResource =
      identityFor "rest" k' .ofResource ↔ (priceOf "BTC").Same k') := by
  have hseparated : ∀ subject : String, '?' ∉ subject.toList → (priceOf subject).Separated :=
    fun subject h => ⟨by simp [priceOf], ⟨by simp [priceOf], by simp [priceOf]⟩, h⟩
  have hplain : ¬ (priceOf "BTC").Plain := fun h => absurd h.subject (by decide)
  refine ⟨(resource_circuit_own_iff "rest").2 _ _ (hseparated "BTC" (by decide))
    (hseparated "ETH" (by decide)), hplain, ?_⟩
  rw [← ((resource_circuit_own_iff "rest").1 (priceOf "BTC")), not_forall] at hplain
  exact hplain

theorem shared_circuit_counterexample : ¬ ∀ (source : String) (k k' : ResourceKey),
    identityFor source k .ofResource = identityFor source k' .ofResource ↔ k.Same k' := by
  intro h
  have hstr : (priceOf "BTC").str = priceNamed.str := by decide
  have hsame := (h "rest" (priceOf "BTC") priceNamed).mp (identityFor_resource.mpr hstr)
  exact absurd hsame.2.1 (by decide)

end ResourceKey
end Coalestra
