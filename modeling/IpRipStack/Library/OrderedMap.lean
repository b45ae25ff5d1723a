import Mathlib.Data.List.Nodup
import Mathlib.Data.List.Perm.Subperm
import Mathlib.Tactic.Common

/-!
# Walks over an ordered map

Loops over `Std.ExtTreeMap` in the order of its keys. `eraseWhere` erases entries of the map while
it walks over them, and `getElem?_eraseWhere` is its law: exactly the entries the test picks are
gone. `foldl_ite_eq` is the law of a scan that keeps the last match, when the matches agree.
`size_eq_add_length` counts the keys of a map that has grown. `keyAfter` is the iterator of a walk
that others change the map under.
-/

set_option autoImplicit false
set_option relaxedAutoImplicit false

namespace IpRipStack.OrderedMap

open Std

/-- A scan that keeps the last match ends with the value on which all matches agree. Assumes: the
scan starts with that value or meets a match. -/
theorem foldl_ite_eq {α β : Type*} (f : α → β) (p : α → Prop) [DecidablePred p] {b : β}
    {l : List α} {init : β} (h : ∀ x ∈ l, p x → f x = b) (hstart : init = b ∨ ∃ x ∈ l, p x) :
    l.foldl (fun acc x ↦ if p x then f x else acc) init = b := by
  induction l generalizing init with
  | nil =>
    rcases hstart with rfl | ⟨x, hx, -⟩
    · rfl
    · exact absurd hx List.not_mem_nil
  | cons y rest ih =>
    rw [List.foldl_cons]
    refine ih (fun x hx ↦ h x (List.mem_cons_of_mem y hx)) ?_
    by_cases hy : p y
    · exact Or.inl ((if_pos hy).trans (h y List.mem_cons_self hy))
    · rw [if_neg hy]
      rcases hstart with rfl | ⟨x, hx, hpx⟩
      · exact Or.inl rfl
      · rcases List.mem_cons.mp hx with rfl | hx
        · exact absurd hpx hy
        · exact Or.inr ⟨x, hx, hpx⟩

section Map

variable {κ α : Type*} [Ord κ] [TransOrd κ] [LawfulEqOrd κ]

omit [LawfulEqOrd κ] in
theorem mem_of_getElem? {t : ExtTreeMap κ α} {k : κ} {v : α} (h : t[k]? = some v) : k ∈ t :=
  ExtTreeMap.mem_iff_isSome_getElem?.mpr (Option.isSome_of_eq_some h)

omit [LawfulEqOrd κ] in
theorem getElem?_of_mem {t : ExtTreeMap κ α} {k : κ} (h : k ∈ t) : ∃ v, t[k]? = some v :=
  Option.isSome_iff_exists.mp (ExtTreeMap.mem_iff_isSome_getElem?.mp h)

omit [LawfulEqOrd κ] in
theorem mem_iff_getElem?_ne_none {t : ExtTreeMap κ α} {k : κ} : k ∈ t ↔ t[k]? ≠ none := by
  rw [ExtTreeMap.mem_iff_isSome_getElem?, Option.isSome_iff_ne_none]

theorem getElem?_insert_eq [DecidableEq κ] (t : ExtTreeMap κ α) (k a : κ) (v : α) :
    (t.insert k v)[a]? = if k = a then some v else t[a]? := by
  rw [ExtTreeMap.getElem?_insert]
  simp only [Std.compare_eq_iff_eq]

theorem getElem?_erase_eq [DecidableEq κ] (t : ExtTreeMap κ α) (k a : κ) :
    (t.erase k)[a]? = if k = a then none else t[a]? := by
  rw [ExtTreeMap.getElem?_erase]
  simp only [Std.compare_eq_iff_eq]

/-- `operator[]` of a key of the map leaves the map alone. -/
theorem insertIfNew_of_mem {t : ExtTreeMap κ α} {k : κ} (h : k ∈ t) (v : α) : t.insertIfNew k v = t := by
  refine ExtTreeMap.ext_getElem? fun a ↦ ?_
  rw [ExtTreeMap.getElem?_insertIfNew, if_neg]
  exact fun hnew ↦ hnew.2 h

/-- The map after a walk over its entries that erases those the test picks. -/
def eraseWhere (p : κ → α → Bool) (t : ExtTreeMap κ α) : ExtTreeMap κ α :=
  t.toList.foldl (fun acc kv ↦ if p kv.1 kv.2 then acc.erase kv.1 else acc) t

/-- A walk that meets no entry of a key the test picks leaves that key alone. -/
theorem getElem?_foldl_erase_of_not {p : κ → α → Bool} {a : κ} {entries : List (κ × α)}
    {t : ExtTreeMap κ α} (h : ∀ v, (a, v) ∈ entries → p a v = false) :
    (entries.foldl (fun acc kv ↦ if p kv.1 kv.2 then acc.erase kv.1 else acc) t)[a]? = t[a]? := by
  induction entries generalizing t with
  | nil => rfl
  | cons kv rest ih =>
    obtain ⟨k, v⟩ := kv
    rw [List.foldl_cons, ih fun w hw ↦ h w (List.mem_cons_of_mem _ hw)]
    split_ifs with hp
    · have hkey : ¬ compare k a = .eq := by
        rw [Std.compare_eq_iff_eq]
        rintro rfl
        exact absurd hp (by rw [h v List.mem_cons_self]; exact Bool.false_ne_true)
      rw [ExtTreeMap.getElem?_erase, if_neg hkey]
    · rfl

omit [LawfulEqOrd κ] in
/-- A walk that meets an entry of a key that the test picks erases that key. -/
theorem getElem?_foldl_erase_of_mem {p : κ → α → Bool} {a : κ} (v : α) {entries : List (κ × α)}
    {t : ExtTreeMap κ α} (h : (a, v) ∈ entries ∧ p a v = true ∨ t[a]? = none) :
    (entries.foldl (fun acc kv ↦ if p kv.1 kv.2 then acc.erase kv.1 else acc) t)[a]? = none := by
  induction entries generalizing t with
  | nil => exact h.resolve_left fun hmem ↦ List.not_mem_nil hmem.1
  | cons kv rest ih =>
    obtain ⟨k, w⟩ := kv
    rw [List.foldl_cons]
    refine ih ?_
    rcases h with ⟨hmem, hp⟩ | hnone
    · rcases List.mem_cons.mp hmem with hhead | hmem
      · obtain ⟨rfl, rfl⟩ := Prod.mk.inj hhead
        exact Or.inr (by rw [if_pos hp, ExtTreeMap.getElem?_erase_self])
      · exact Or.inl ⟨hmem, hp⟩
    · refine Or.inr ?_
      split_ifs
      · rw [ExtTreeMap.getElem?_erase, hnone, ite_self]
      · exact hnone

/-- The law of the erasing walk: an entry survives exactly when the test does not pick it. -/
theorem getElem?_eraseWhere_eq_some {p : κ → α → Bool} {t : ExtTreeMap κ α} {a : κ} {v : α} :
    (eraseWhere p t)[a]? = some v ↔ t[a]? = some v ∧ p a v = false := by
  cases hentry : t[a]? with
  | none =>
    rw [eraseWhere, getElem?_foldl_erase_of_mem v (Or.inr hentry)]
    simp
  | some w =>
    have hmem : (a, w) ∈ t.toList := ExtTreeMap.mem_toList_iff_getElem?_eq_some.mpr hentry
    cases hp : p a w with
    | false =>
      have hkept : ∀ u, (a, u) ∈ t.toList → p a u = false := by
        intro u hu
        have hsame := ExtTreeMap.mem_toList_iff_getElem?_eq_some.mp hu
        rw [hentry] at hsame
        rwa [← Option.some.inj hsame]
      rw [eraseWhere, getElem?_foldl_erase_of_not hkept, hentry]
      constructor
      · intro h
        exact ⟨h, by rwa [← Option.some.inj h]⟩
      · exact fun h ↦ h.1
    | true =>
      rw [eraseWhere, getElem?_foldl_erase_of_mem w (Or.inl ⟨hmem, hp⟩)]
      constructor
      · intro h
        exact absurd h.symm (Option.some_ne_none v)
      · rintro ⟨h, hnot⟩
        rw [← Option.some.inj h, hp] at hnot
        exact absurd hnot.symm Bool.false_ne_true

/-- The walk erases nothing exactly when the test picks no entry. -/
theorem eraseWhere_eq_self_iff {p : κ → α → Bool} {t : ExtTreeMap κ α} :
    eraseWhere p t = t ↔ ∀ (a : κ) (v : α), t[a]? = some v → p a v = false := by
  constructor
  · intro hsame a v hentry
    exact (getElem?_eraseWhere_eq_some.mp ((congrArg (·[a]?) hsame).trans hentry)).2
  · intro hnone
    refine ExtTreeMap.ext_getElem? fun a ↦ Option.ext fun v ↦ ?_
    rw [getElem?_eraseWhere_eq_some]
    exact and_iff_left_of_imp (hnone a v)

/-- A map whose keys are all keys of another is no larger. -/
theorem size_le_of_subset {t t' : ExtTreeMap κ α} (h : ∀ k ∈ t, k ∈ t') : t.size ≤ t'.size := by
  rw [← ExtTreeMap.length_keys, ← ExtTreeMap.length_keys]
  refine (List.subperm_of_subset t.nodup_keys fun k hk ↦ ?_).length_le
  exact ExtTreeMap.mem_keys.mpr (h k (ExtTreeMap.mem_keys.mp hk))

theorem size_le_length {t : ExtTreeMap κ α} {l : List κ} (h : ∀ k ∈ t, k ∈ l) :
    t.size ≤ l.length := by
  rw [← ExtTreeMap.length_keys]
  exact (List.subperm_of_subset t.nodup_keys fun k hk ↦ h k (ExtTreeMap.mem_keys.mp hk)).length_le

/-- The size of a map that has the keys of another and those of a list. Assumes: a list without
repetitions, of keys the other map does not have. -/
theorem size_eq_add_length {t t' : ExtTreeMap κ α} {new : List κ} (hnodup : new.Nodup)
    (hnew : ∀ k ∈ new, k ∉ t) (h : ∀ k, k ∈ t' ↔ k ∈ t ∨ k ∈ new) :
    t'.size = t.size + new.length := by
  have hdisjoint : (t.keys ++ new).Nodup :=
    List.Nodup.append t.nodup_keys hnodup fun k hk hk' ↦ hnew k hk' (ExtTreeMap.mem_keys.mp hk)
  have hperm : t'.keys.Perm (t.keys ++ new) := by
    refine (List.perm_ext_iff_of_nodup t'.nodup_keys hdisjoint).mpr fun k ↦ ?_
    rw [List.mem_append, ExtTreeMap.mem_keys, ExtTreeMap.mem_keys]
    exact h k
  rw [← ExtTreeMap.length_keys, ← ExtTreeMap.length_keys, hperm.length_eq, List.length_append]

/-- The key at which a walk begins, `none` at the end. -/
def firstKey (t : ExtTreeMap κ α) : Option κ := t.keys.head?

theorem exists_firstKey_le {t : ExtTreeMap κ α} {a : κ} (ha : a ∈ t) :
    ∃ k, firstKey t = some k ∧ (compare k a).isLE := by
  have hmem : a ∈ t.keys := ExtTreeMap.mem_keys.mpr ha
  have hordered : List.Pairwise (fun a b ↦ compare a b = .lt) t.keys := t.ordered_keys
  unfold firstKey
  cases hkeys : t.keys with
  | nil => exact absurd (hkeys ▸ hmem) List.not_mem_nil
  | cons k rest =>
    refine ⟨k, rfl, ?_⟩
    rw [hkeys] at hmem hordered
    rcases List.mem_cons.mp hmem with rfl | hmem
    · exact ReflCmp.isLE_rfl
    · rw [(List.pairwise_cons.mp hordered).1 a hmem]
      rfl

theorem mem_of_firstKey {t : ExtTreeMap κ α} {k : κ} (h : firstKey t = some k) : k ∈ t :=
  ExtTreeMap.mem_keys.mp (List.mem_of_head? h)

/-- The next key of a walk that is at the given one, `none` at the end. -/
def keyAfter (t : ExtTreeMap κ α) (k : κ) : Option κ := t.keys.find? fun a ↦ (compare k a).isLT

omit [LawfulEqOrd κ] in
theorem lt_of_keyAfter {t : ExtTreeMap κ α} {k n : κ} (h : keyAfter t k = some n) :
    compare k n = .lt := by
  have hfound : (compare k n).isLT = true :=
    List.find?_some (p := fun a ↦ (compare k a).isLT) h
  exact Ordering.isLT_iff_eq_lt.mp hfound

theorem mem_of_keyAfter {t : ExtTreeMap κ α} {k n : κ} (h : keyAfter t k = some n) : n ∈ t :=
  ExtTreeMap.mem_keys.mp (List.mem_of_find?_eq_some h)

/-- A walk does not step over a key of the map. -/
theorem exists_keyAfter_le {t : ExtTreeMap κ α} {k a : κ} (ha : a ∈ t) (hlt : compare k a = .lt) :
    ∃ n, keyAfter t k = some n ∧ (compare n a).isLE := by
  have hsome : (keyAfter t k).isSome := by
    refine List.find?_isSome.mpr ⟨a, ExtTreeMap.mem_keys.mpr ha, ?_⟩
    exact Ordering.isLT_iff_eq_lt.mpr hlt
  obtain ⟨n, hn⟩ := Option.isSome_iff_exists.mp hsome
  refine ⟨n, hn, ?_⟩
  obtain ⟨-, before, after, hkeys, hbefore⟩ := List.find?_eq_some_iff_append.mp hn
  have hmem : a ∈ before ++ n :: after := hkeys ▸ ExtTreeMap.mem_keys.mpr ha
  rcases List.mem_append.mp hmem with hmem | hmem
  · have hnot := hbefore a hmem
    rw [hlt] at hnot
    exact absurd hnot (by decide)
  · rcases List.mem_cons.mp hmem with rfl | hmem
    · exact ReflCmp.isLE_rfl
    · have hordered : List.Pairwise (fun a b ↦ compare a b = .lt) (before ++ n :: after) :=
        hkeys ▸ t.ordered_keys
      have hlater := (List.pairwise_cons.mp (List.pairwise_append.mp hordered).2.1).1 a hmem
      rw [hlater]
      rfl

end Map

end IpRipStack.OrderedMap
