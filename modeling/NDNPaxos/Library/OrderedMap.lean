import Mathlib.Data.Finset.Card
import Mathlib.Data.List.Nodup
import Mathlib.Data.Multiset.MapFold
import Mathlib.Tactic.Common

/-!
# Entries of an ordered map

The entries of a tree map, seen through a function of the values, as a list up
to permutation: what inserting a fresh key, erasing a key and changing a value
do to it.  The keys whose values satisfy a test form a finite set, of the size
that counting along the entries gives.
-/

namespace OrderedMap

variable {Key Value Label : Type*} [Ord Key] [Std.TransOrd Key] [Std.LawfulEqOrd Key]

def entries (label : Value → Label) (map : Std.TreeMap Key Value) : List (Key × Label) :=
  map.toList.map fun entry => (entry.1, label entry.2)

variable {label : Value → Label} {map map' : Std.TreeMap Key Value}

theorem mem_entries {key : Key} {content : Label} :
    (key, content) ∈ entries label map ↔ (map[key]?).map label = some content := by
  unfold entries
  rw [List.mem_map, Option.map_eq_some_iff]
  constructor
  · rintro ⟨⟨found, value⟩, hmem, heq⟩
    rw [Prod.mk.injEq] at heq
    obtain ⟨rfl, rfl⟩ := heq
    exact ⟨value, Std.TreeMap.mem_toList_iff_getElem?_eq_some.mp hmem, rfl⟩
  · rintro ⟨value, hget, rfl⟩
    exact ⟨(key, value), Std.TreeMap.mem_toList_iff_getElem?_eq_some.mpr hget, rfl⟩

theorem nodup_keys (map : Std.TreeMap Key Value) : (map.toList.map Prod.fst).Nodup := by
  rw [List.Nodup, List.pairwise_map]
  apply map.distinct_keys_toList.imp
  intro first second hdistinct heq
  rw [heq] at hdistinct
  exact hdistinct Std.ReflCmp.compare_self

theorem nodup_entries : (entries label map).Nodup := by
  apply List.Nodup.of_map Prod.fst
  have hkeys : (entries label map).map Prod.fst = map.toList.map Prod.fst := by
    rw [entries, List.map_map]
    rfl
  rw [hkeys]
  exact nodup_keys map

omit [Std.TransOrd Key] [Std.LawfulEqOrd Key] in
theorem length_entries (label : Value → Label) (map : Std.TreeMap Key Value) :
    (entries label map).length = map.size := by
  rw [entries, List.length_map, Std.TreeMap.length_toList]

theorem entries_perm
    (hsame : ∀ key : Key, (map[key]?).map label = (map'[key]?).map label) :
    (entries label map).Perm (entries label map') := by
  rw [List.perm_ext_iff_of_nodup nodup_entries nodup_entries]
  rintro ⟨key, content⟩
  rw [mem_entries, mem_entries, hsame key]

theorem size_eq (hsame : ∀ key : Key, (map[key]?).map label = (map'[key]?).map label) :
    map.size = map'.size := by
  rw [← length_entries label map, ← length_entries label map']
  exact (entries_perm hsame).length_eq

theorem entries_insert (label : Value → Label) {key : Key} (hfresh : map[key]? = none)
    (value : Value) :
    (entries label (map.insert key value)).Perm
      ((key, label value) :: entries label map) := by
  have hnotMem : (key, label value) ∉ entries label map := by
    rw [mem_entries, hfresh]
    simp
  rw [List.perm_ext_iff_of_nodup nodup_entries (List.nodup_cons.mpr ⟨hnotMem, nodup_entries⟩)]
  rintro ⟨other, content⟩
  rw [List.mem_cons, mem_entries, mem_entries, Std.TreeMap.getElem?_insert, Prod.mk.injEq]
  by_cases heq : key = other
  · subst heq
    simp [hfresh, eq_comm]
  · simp [heq, Ne.symm heq]

theorem entries_insert_coe (label : Value → Label) {key : Key} (hfresh : map[key]? = none)
    (value : Value) :
    Multiset.ofList (entries label (map.insert key value)) =
      (key, label value) ::ₘ Multiset.ofList (entries label map) :=
  Multiset.coe_eq_coe.mpr (entries_insert label hfresh value)

theorem fresh_of_notMem {key : Key}
    (hfresh : key ∉ (Multiset.ofList (entries label map)).map Prod.fst) : map[key]? = none := by
  rw [Option.eq_none_iff_forall_ne_some]
  intro value hvalue
  apply hfresh
  have hmem : (key, label value) ∈ entries label map :=
    mem_entries.mpr (by rw [hvalue, Option.map_some])
  exact Multiset.mem_map_of_mem Prod.fst (Multiset.mem_coe.mpr hmem)

theorem entries_erase (label : Value → Label) {key : Key} {value : Value}
    (hpresent : map[key]? = some value) :
    (entries label map).Perm ((key, label value) :: entries label (map.erase key)) := by
  have hnotMem : (key, label value) ∉ entries label (map.erase key) := by
    rw [mem_entries, Std.TreeMap.getElem?_erase_self]
    simp
  rw [List.perm_ext_iff_of_nodup nodup_entries (List.nodup_cons.mpr ⟨hnotMem, nodup_entries⟩)]
  rintro ⟨other, content⟩
  rw [List.mem_cons, mem_entries, mem_entries, Std.TreeMap.getElem?_erase, Prod.mk.injEq]
  by_cases heq : key = other
  · subst heq
    simp [hpresent, eq_comm]
  · simp [heq, Ne.symm heq]

theorem insert_cases {key other : Key} {value found : Value}
    (hget : (map.insert key value)[other]? = some found) :
    (other = key ∧ found = value) ∨ (other ≠ key ∧ map[other]? = some found) := by
  rw [Std.TreeMap.getElem?_insert] at hget
  by_cases heq : key = other
  · subst heq
    simp only [Std.ReflCmp.compare_self, if_true, Option.some.injEq] at hget
    exact .inl ⟨rfl, hget.symm⟩
  · simp only [Std.LawfulEqCmp.compare_eq_iff_eq, heq, if_false] at hget
    exact .inr ⟨Ne.symm heq, hget⟩

omit [Std.LawfulEqOrd Key] in
theorem of_erase {key other : Key} {found : Value}
    (hget : (map.erase key)[other]? = some found) : map[other]? = some found := by
  rw [Std.TreeMap.getElem?_erase] at hget
  split at hget
  · simp at hget
  · exact hget

/-- What holds of every value still does after one that satisfies it is inserted. -/
theorem forall_insert {holds : Key → Value → Prop} {key : Key} {value : Value}
    (hall : ∀ (key : Key) value, map[key]? = some value → holds key value)
    (hnew : holds key value) (other : Key) (found : Value)
    (hget : (map.insert key value)[other]? = some found) : holds other found := by
  rcases insert_cases hget with ⟨rfl, rfl⟩ | ⟨_, hold⟩
  · exact hnew
  · exact hall other found hold

omit [Std.LawfulEqOrd Key] in
theorem forall_erase {holds : Key → Value → Prop} {key : Key}
    (hall : ∀ (key : Key) value, map[key]? = some value → holds key value) (other : Key)
    (found : Value) (hget : (map.erase key)[other]? = some found) : holds other found :=
  hall other found (of_erase hget)

theorem size_insert {key : Key} (hfresh : map[key]? = none) (value : Value) :
    (map.insert key value).size = map.size + 1 := by
  rw [← length_entries id (map.insert key value), (entries_insert id hfresh value).length_eq,
    List.length_cons, length_entries]

theorem size_erase {key : Key} {value : Value} (hpresent : map[key]? = some value) :
    map.size = (map.erase key).size + 1 := by
  rw [← length_entries id map, (entries_erase id hpresent).length_eq, List.length_cons,
    length_entries]

/-! ## Keys whose values pass a test -/

def keysWhere (test : Value → Bool) (map : Std.TreeMap Key Value) : List Key :=
  (map.toList.filter fun entry => test entry.2).map Prod.fst

theorem mem_keysWhere {test : Value → Bool} {key : Key} :
    key ∈ keysWhere test map ↔ ∃ value, map[key]? = some value ∧ test value = true := by
  unfold keysWhere
  rw [List.mem_map]
  constructor
  · rintro ⟨⟨found, value⟩, hmem, rfl⟩
    rw [List.mem_filter] at hmem
    exact ⟨value, Std.TreeMap.mem_toList_iff_getElem?_eq_some.mp hmem.1, hmem.2⟩
  · rintro ⟨value, hget, htest⟩
    refine ⟨(key, value), ?_, rfl⟩
    rw [List.mem_filter]
    exact ⟨Std.TreeMap.mem_toList_iff_getElem?_eq_some.mpr hget, htest⟩

theorem nodup_keysWhere {test : Value → Bool} : (keysWhere test map).Nodup :=
  (List.filter_sublist.map Prod.fst).nodup (nodup_keys map)

/-- As many distinct keys as the values that pass. -/
theorem card_keysWhere [DecidableEq Key] {test : Value → Bool} :
    (keysWhere test map).toFinset.card = (map.toList.map Prod.snd).countP test := by
  rw [List.toFinset_card_of_nodup nodup_keysWhere, keysWhere, List.length_map,
    ← List.countP_eq_length_filter, List.countP_map]
  rfl

theorem card_le_size [DecidableEq Key] {keys : Finset Key}
    (hkeys : ∀ key ∈ keys, (map[key]?).isSome) : keys.card ≤ map.size := by
  have hsub : keys ⊆ (keysWhere (fun _ => true) map).toFinset := by
    intro key hmem
    rcases Option.isSome_iff_exists.mp (hkeys key hmem) with ⟨value, hvalue⟩
    exact List.mem_toFinset.mpr (mem_keysWhere.mpr ⟨value, hvalue, rfl⟩)
  calc
    keys.card ≤ (keysWhere (fun _ => true) map).toFinset.card := Finset.card_le_card hsub
    _ ≤ (map.toList.map Prod.snd).length := card_keysWhere.trans_le List.countP_le_length
    _ = map.size := by rw [List.length_map, Std.TreeMap.length_toList]

end OrderedMap
