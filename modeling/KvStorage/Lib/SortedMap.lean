import Mathlib.Data.Finmap
import Mathlib.Order.Basic

/-!
# Keyed lists as finite maps

A list of elements, each with a key in a linear order, strictly increasing in
the key (`SortedKeys`), searched with an early stop at the first larger key.
`upsert`, `remove` and `search` are the three operations; each is compared with
the finite map the list stands for (`toMap`).

The second half is about a family of such lists spread over buckets by a hash
function: as long as every element sits in the bucket its key hashes to
(`Placed`), a lookup in the whole family is a lookup in one bucket, and the keys
of the family are pairwise distinct. A hash table's correctness is these two
facts plus the per-list ones.
-/

namespace SortedMap

variable {ε κ ν : Type} [LinearOrder κ] (key : ε → κ) (val : ε → ν)

/-! ## Finite maps of keyed lists -/

/-- The finite map a keyed list stands for; the first of two elements with one
key counts. -/
def toMap (l : List ε) : Finmap (fun _ : κ => ν) :=
  (l.map fun e => (⟨key e, val e⟩ : Sigma fun _ : κ => ν)).toFinmap

@[simp] theorem lookup_toMap_nil (k : κ) : (toMap key val []).lookup k = none := by
  unfold toMap
  rw [Finmap.dlookup_list_toFinmap]
  rfl

theorem lookup_toMap_cons (e : ε) (l : List ε) (k : κ) :
    (toMap key val (e :: l)).lookup k
      = if k = key e then some (val e) else (toMap key val l).lookup k := by
  unfold toMap
  rw [Finmap.dlookup_list_toFinmap, Finmap.dlookup_list_toFinmap, List.map_cons]
  by_cases h : k = key e
  · subst h
    rw [if_pos rfl, List.dlookup_cons_eq]
  · rw [if_neg h, List.dlookup_cons_ne _ _ h]

theorem lookup_toMap_eq_none {l : List ε} {k : κ} :
    (toMap key val l).lookup k = none ↔ ∀ e ∈ l, key e ≠ k := by
  induction l with
  | nil => simp
  | cons e l ih =>
    rw [lookup_toMap_cons]
    by_cases h : k = key e
    · simp [h]
    · rw [if_neg h, ih]
      constructor
      · intro hl e' he'
        rcases List.mem_cons.mp he' with rfl | hmem
        · exact fun he => h he.symm
        · exact hl e' hmem
      · exact fun hl e' he' => hl e' (List.mem_cons_of_mem _ he')

/-- With distinct keys, lookup is membership. -/
theorem lookup_toMap_eq_some {l : List ε} (hnd : (l.map key).Nodup) {k : κ} {v : ν} :
    (toMap key val l).lookup k = some v ↔ ∃ e ∈ l, key e = k ∧ val e = v := by
  induction l with
  | nil => simp
  | cons e l ih =>
    rw [List.map_cons, List.nodup_cons] at hnd
    obtain ⟨hfresh, hnd⟩ := hnd
    rw [lookup_toMap_cons]
    by_cases h : k = key e
    · subst h
      rw [if_pos rfl, Option.some.injEq]
      constructor
      · exact fun hv => ⟨e, List.mem_cons_self .., rfl, hv⟩
      · intro ⟨e', he', hk, hv⟩
        rcases List.mem_cons.mp he' with rfl | hmem
        · exact hv
        · exact absurd (hk ▸ List.mem_map_of_mem hmem) hfresh
    · rw [if_neg h, ih hnd]
      constructor
      · intro ⟨e', he', hkv⟩
        exact ⟨e', List.mem_cons_of_mem _ he', hkv⟩
      · intro ⟨e', he', hk, hv⟩
        rcases List.mem_cons.mp he' with rfl | hmem
        · exact absurd hk.symm h
        · exact ⟨e', hmem, hk, hv⟩

/-- The keys of the map are the keys of the list. -/
theorem mem_keys_toMap {l : List ε} {k : κ} : k ∈ (toMap key val l).keys ↔ k ∈ l.map key := by
  rw [Finmap.mem_keys, ← not_iff_not, ← Finmap.lookup_eq_none, lookup_toMap_eq_none]
  constructor
  · intro h hmem
    obtain ⟨e, he, hk⟩ := List.mem_map.mp hmem
    exact h e he hk
  · exact fun h e he hk => h (hk ▸ List.mem_map_of_mem he)

/-- With distinct keys, the map has as many keys as the list has elements. -/
theorem card_keys_toMap {l : List ε} (hnd : (l.map key).Nodup) :
    (toMap key val l).keys.card = l.length := by
  have hkeys : (toMap key val l).keys = (l.map key).toFinset := by
    ext k
    rw [mem_keys_toMap, List.mem_toFinset]
  rw [hkeys, List.toFinset_card_of_nodup hnd, List.length_map]

/-- Inserting the elements one by one gives their map on top of the old one. -/
theorem lookup_foldl_insert {l : List ε} (hnd : (l.map key).Nodup)
    (M : Finmap fun _ : κ => ν) (k : κ) :
    (l.foldl (fun M e => M.insert (key e) (val e)) M).lookup k
      = ((toMap key val l).lookup k).or (M.lookup k) := by
  induction l generalizing M with
  | nil => simp
  | cons e l ih =>
    rw [List.map_cons, List.nodup_cons] at hnd
    obtain ⟨hfresh, hnd⟩ := hnd
    rw [List.foldl_cons, ih hnd, lookup_toMap_cons]
    by_cases hk : k = key e
    · subst hk
      have hnone : (toMap key val l).lookup (key e) = none := by
        rw [lookup_toMap_eq_none]
        exact fun e' he' hkey => hfresh (hkey ▸ List.mem_map_of_mem he')
      rw [hnone, if_pos rfl, Finmap.lookup_insert]
      rfl
    · rw [if_neg hk, Finmap.lookup_insert_of_ne _ hk]

/-- Putting all elements into an empty map makes the map of the list. -/
theorem foldl_insert_empty {l : List ε} (hnd : (l.map key).Nodup) :
    l.foldl (fun M e => M.insert (key e) (val e)) ∅ = toMap key val l := by
  refine Finmap.ext_lookup fun k => ?_
  rw [lookup_foldl_insert key val hnd, Finmap.lookup_empty, Option.or_none]

/-- With distinct keys the order does not matter. -/
theorem toMap_perm {l l' : List ε} (hp : l.Perm l') (hnd : (l.map key).Nodup) :
    toMap key val l = toMap key val l' := by
  have hnd' : (l'.map key).Nodup := (hp.map key).nodup_iff.mp hnd
  refine Finmap.ext_lookup fun k => Option.ext fun v => ?_
  rw [lookup_toMap_eq_some key val hnd, lookup_toMap_eq_some key val hnd']
  simp only [hp.mem_iff]

/-! ## Sorted lists -/

/-- Strictly increasing keys. -/
def SortedKeys (l : List ε) : Prop := (l.map key).Pairwise (· < ·)

instance (l : List ε) : Decidable (SortedKeys key l) :=
  inferInstanceAs (Decidable ((l.map key).Pairwise (· < ·)))

theorem sortedKeys_nil : SortedKeys key [] := List.Pairwise.nil

theorem sortedKeys_cons {e : ε} {l : List ε} :
    SortedKeys key (e :: l) ↔ (∀ e' ∈ l, key e < key e') ∧ SortedKeys key l := by
  unfold SortedKeys
  rw [List.map_cons, List.pairwise_cons]
  constructor
  · intro ⟨h, hs⟩
    exact ⟨fun e' he' => h _ (List.mem_map_of_mem he'), hs⟩
  · intro ⟨h, hs⟩
    refine ⟨fun k hk => ?_, hs⟩
    obtain ⟨e', he', rfl⟩ := List.mem_map.mp hk
    exact h e' he'

theorem SortedKeys.nodup {l : List ε} (h : SortedKeys key l) : (l.map key).Nodup :=
  List.Pairwise.imp (fun hlt => ne_of_lt hlt) h

/-- The keys and values of a list, in its order. -/
def listing (l : List ε) : List (κ × ν) := l.map fun e => (key e, val e)

/-- The listing has exactly the pairs of the map. -/
theorem mem_listing {l : List ε} (hnd : (l.map key).Nodup) {p : κ × ν} :
    p ∈ listing key val l ↔ (toMap key val l).lookup p.1 = some p.2 := by
  rw [lookup_toMap_eq_some key val hnd, listing, List.mem_map]
  simp only [Prod.ext_iff]

theorem SortedKeys.pairwise_listing {l : List ε} (h : SortedKeys key l) :
    (listing key val l).Pairwise fun p q => p.1 < q.1 := by
  rw [listing, List.pairwise_map]
  exact List.pairwise_map.mp h

/-- A sorted list is determined by its map. -/
theorem SortedKeys.listing_eq {l₁ l₂ : List ε} (h₁ : SortedKeys key l₁) (h₂ : SortedKeys key l₂)
    (hmap : toMap key val l₁ = toMap key val l₂) : listing key val l₁ = listing key val l₂ := by
  have hp₁ := h₁.pairwise_listing key val
  have hp₂ := h₂.pairwise_listing key val
  have hne : ∀ {p q : κ × ν}, p.1 < q.1 → p ≠ q := fun hlt heq => hlt.ne (congrArg Prod.fst heq)
  have hperm : (listing key val l₁).Perm (listing key val l₂) := by
    refine (List.perm_ext_iff_of_nodup (hp₁.imp hne) (hp₂.imp hne)).mpr fun p => ?_
    rw [mem_listing key val h₁.nodup, mem_listing key val h₂.nodup, hmap]
  exact hperm.eq_of_pairwise (fun p q _ _ hpq hqp => absurd hpq hqp.not_gt) hp₁ hp₂

/-- Insert `e` in order, replacing the element of equal key if there is one. -/
def upsert (e : ε) : List ε → List ε
  | [] => [e]
  | c :: l =>
    if key c < key e then c :: upsert e l
    else if key c = key e then e :: l
    else e :: c :: l

/-- Delete the element with key `k`, looking no further than the first larger
key. -/
def remove (k : κ) : List ε → List ε
  | [] => []
  | c :: l =>
    if key c = k then l
    else if k < key c then c :: l
    else c :: remove k l

/-- The element with key `k`, looking no further than the first larger key. -/
def search (k : κ) : List ε → Option ε
  | [] => none
  | c :: l =>
    if key c = k then some c
    else if k < key c then none
    else search k l

theorem mem_upsert {e x : ε} {l : List ε} (h : x ∈ upsert key e l) : x = e ∨ x ∈ l := by
  induction l with
  | nil => exact Or.inl (List.mem_singleton.mp h)
  | cons c l ih =>
    unfold upsert at h
    split at h
    · rcases List.mem_cons.mp h with rfl | h
      · exact Or.inr (List.mem_cons_self ..)
      · exact (ih h).imp_right (List.mem_cons_of_mem _)
    · split at h
      · exact (List.mem_cons.mp h).imp_right (List.mem_cons_of_mem _)
      · exact List.mem_cons.mp h

theorem mem_of_mem_remove {k : κ} {x : ε} {l : List ε} (h : x ∈ remove key k l) : x ∈ l := by
  induction l with
  | nil => exact h
  | cons c l ih =>
    unfold remove at h
    split at h
    · exact List.mem_cons_of_mem _ h
    · split at h
      · exact h
      · rcases List.mem_cons.mp h with rfl | h
        · exact List.mem_cons_self ..
        · exact List.mem_cons_of_mem _ (ih h)

theorem SortedKeys.upsert {e : ε} {l : List ε} (hs : SortedKeys key l) :
    SortedKeys key (upsert key e l) := by
  induction l with
  | nil => exact (sortedKeys_cons key).mpr ⟨by simp, hs⟩
  | cons c l ih =>
    obtain ⟨hc, hl⟩ := (sortedKeys_cons key).mp hs
    unfold SortedMap.upsert
    split
    next hlt =>
      refine (sortedKeys_cons key).mpr ⟨fun x hx => ?_, ih hl⟩
      rcases mem_upsert key hx with rfl | hx
      · exact hlt
      · exact hc x hx
    next hnlt =>
      split
      next heq =>
        exact (sortedKeys_cons key).mpr ⟨fun x hx => heq ▸ hc x hx, hl⟩
      next hne =>
        -- the new key is below `c`'s, hence below every key of the tail
        have hec : key e < key c := lt_of_le_of_ne (not_lt.mp hnlt) (fun h => hne h.symm)
        refine (sortedKeys_cons key).mpr ⟨fun x hx => ?_, hs⟩
        rcases List.mem_cons.mp hx with rfl | hx
        · exact hec
        · exact lt_trans hec (hc x hx)

theorem SortedKeys.remove {k : κ} {l : List ε} (hs : SortedKeys key l) :
    SortedKeys key (remove key k l) := by
  induction l with
  | nil => exact hs
  | cons c l ih =>
    obtain ⟨hc, hl⟩ := (sortedKeys_cons key).mp hs
    unfold SortedMap.remove
    split
    · exact hl
    · split
      · exact hs
      · exact (sortedKeys_cons key).mpr ⟨fun x hx => hc x (mem_of_mem_remove key hx), ih hl⟩

/-- In a sorted list the early stop loses nothing. -/
theorem lookup_toMap_of_lt {k : κ} {c : ε} {l : List ε} (hs : SortedKeys key (c :: l))
    (hk : k < key c) : (toMap key val (c :: l)).lookup k = none := by
  rw [lookup_toMap_eq_none]
  intro e he heq
  rcases List.mem_cons.mp he with rfl | he
  · exact absurd heq (ne_of_gt hk)
  · exact absurd heq (ne_of_gt (lt_trans hk (((sortedKeys_cons key).mp hs).1 e he)))

theorem search_eq_lookup {k : κ} {l : List ε} (hs : SortedKeys key l) :
    (search key k l).map val = (toMap key val l).lookup k := by
  induction l with
  | nil => simp [search]
  | cons c l ih =>
    unfold search
    split
    next heq => rw [lookup_toMap_cons, if_pos heq.symm, Option.map_some]
    next hne =>
      split
      next hlt => rw [lookup_toMap_of_lt key val hs hlt, Option.map_none]
      next =>
        rw [ih ((sortedKeys_cons key).mp hs).2, lookup_toMap_cons,
          if_neg (fun h => hne h.symm)]

/-- What is found is in the list, under that key. -/
theorem search_mem {k : κ} {e : ε} {l : List ε} (h : search key k l = some e) :
    e ∈ l ∧ key e = k := by
  induction l with
  | nil => exact absurd h (by simp [search])
  | cons c l ih =>
    unfold search at h
    split at h
    next heq =>
      obtain rfl := Option.some.inj h
      exact ⟨List.mem_cons_self .., heq⟩
    next =>
      split at h
      · exact absurd h (by simp)
      · exact ⟨List.mem_cons_of_mem _ (ih h).1, (ih h).2⟩

/-- An element with that key is replaced, the others stay. -/
theorem mem_upsert_iff {e x : ε} {l : List ε} (hs : SortedKeys key l) :
    x ∈ upsert key e l ↔ x = e ∨ x ∈ l ∧ key x ≠ key e := by
  induction l with
  | nil => simp [upsert]
  | cons c l ih =>
    obtain ⟨hc, hl⟩ := (sortedKeys_cons key).mp hs
    unfold upsert
    split
    next hlt =>
      have hce : key c ≠ key e := ne_of_lt hlt
      rw [List.mem_cons, ih hl, List.mem_cons]
      constructor
      · intro hx
        rcases hx with rfl | rfl | hx
        · exact Or.inr ⟨Or.inl rfl, hce⟩
        · exact Or.inl rfl
        · exact Or.inr ⟨Or.inr hx.1, hx.2⟩
      · intro hx
        rcases hx with rfl | ⟨rfl | hx, hne⟩
        · exact Or.inr (Or.inl rfl)
        · exact Or.inl rfl
        · exact Or.inr (Or.inr ⟨hx, hne⟩)
    next hnlt =>
      split
      next heq =>
        -- `c` is the one that goes, and the keys behind it are larger
        rw [List.mem_cons, List.mem_cons]
        refine or_congr_right ⟨fun hx => ⟨Or.inr hx, heq ▸ ne_of_gt (hc x hx)⟩, ?_⟩
        intro ⟨hx, hne⟩
        exact hx.resolve_left fun hxc => hne (hxc ▸ heq)
      next hne =>
        have hec : key e < key c := lt_of_le_of_ne (not_lt.mp hnlt) (fun h => hne h.symm)
        have hlarger : ∀ x ∈ c :: l, key x ≠ key e := by
          intro x hx
          rcases List.mem_cons.mp hx with rfl | hx
          · exact hne
          · exact ne_of_gt (lt_trans hec (hc x hx))
        rw [List.mem_cons]
        exact or_congr_right ⟨fun hx => ⟨hx, hlarger x hx⟩, fun hx => hx.1⟩

/-- The others stay. -/
theorem mem_remove_iff {k : κ} {x : ε} {l : List ε} (hs : SortedKeys key l) :
    x ∈ remove key k l ↔ x ∈ l ∧ key x ≠ k := by
  induction l with
  | nil => simp [remove]
  | cons c l ih =>
    obtain ⟨hc, hl⟩ := (sortedKeys_cons key).mp hs
    unfold remove
    split
    next heq =>
      rw [List.mem_cons]
      refine ⟨fun hx => ⟨Or.inr hx, heq ▸ ne_of_gt (hc x hx)⟩, ?_⟩
      intro ⟨hx, hne⟩
      exact hx.resolve_left fun hxc => hne (hxc ▸ heq)
    next hne =>
      split
      next hlt =>
        refine ⟨fun hx => ⟨hx, ?_⟩, fun hx => hx.1⟩
        rcases List.mem_cons.mp hx with rfl | hx
        · exact hne
        · exact ne_of_gt (lt_trans hlt (hc x hx))
      next =>
        rw [List.mem_cons, ih hl, List.mem_cons]
        constructor
        · intro hx
          rcases hx with rfl | ⟨hx, hk⟩
          · exact ⟨Or.inl rfl, hne⟩
          · exact ⟨Or.inr hx, hk⟩
        · intro ⟨hx, hk⟩
          exact hx.imp_right fun hx => ⟨hx, hk⟩

theorem search_eq_some_iff {k : κ} {e : ε} {l : List ε} (hs : SortedKeys key l) :
    search key k l = some e ↔ e ∈ l ∧ key e = k := by
  have hlookup : (search key k l).map id = (toMap key id l).lookup k := search_eq_lookup key id hs
  rw [Option.map_id, id] at hlookup
  rw [hlookup, lookup_toMap_eq_some key id hs.nodup]
  constructor
  · intro ⟨e', he', hk, heq⟩
    obtain rfl : e' = e := heq
    exact ⟨he', hk⟩
  · exact fun ⟨he, hk⟩ => ⟨e, he, hk, rfl⟩

theorem toMap_upsert {e : ε} {l : List ε} (hs : SortedKeys key l) (k : κ) :
    (toMap key val (upsert key e l)).lookup k
      = if k = key e then some (val e) else (toMap key val l).lookup k := by
  induction l with
  | nil => rw [upsert, lookup_toMap_cons]
  | cons c l ih =>
    obtain ⟨hc, hl⟩ := (sortedKeys_cons key).mp hs
    unfold upsert
    split
    next hlt =>
      rw [lookup_toMap_cons, ih hl, lookup_toMap_cons]
      by_cases hkc : k = key c
      · have hke : k ≠ key e := hkc ▸ ne_of_lt hlt
        rw [if_pos hkc, if_neg hke, if_pos hkc]
      · rw [if_neg hkc, if_neg hkc]
    next =>
      split
      next heq =>
        rw [lookup_toMap_cons, lookup_toMap_cons, heq]
        by_cases hke : k = key e
        · rw [if_pos hke, if_pos hke]
        · rw [if_neg hke, if_neg hke, if_neg hke]
      next => rw [lookup_toMap_cons]

theorem toMap_remove {k : κ} {l : List ε} (hs : SortedKeys key l) (k' : κ) :
    (toMap key val (remove key k l)).lookup k'
      = if k' = k then none else (toMap key val l).lookup k' := by
  induction l with
  | nil => simp [remove]
  | cons c l ih =>
    obtain ⟨hc, hl⟩ := (sortedKeys_cons key).mp hs
    unfold remove
    split
    next heq =>
      rw [lookup_toMap_cons, heq]
      by_cases hk : k' = k
      · -- the removed key cannot occur again in the tail
        rw [if_pos hk, hk, lookup_toMap_eq_none]
        exact fun e he h => absurd (heq.trans h.symm) (ne_of_lt (hc e he))
      · rw [if_neg hk, if_neg hk]
    next hne =>
      split
      next hlt =>
        by_cases hk : k' = k
        · rw [if_pos hk, hk, lookup_toMap_of_lt key val hs hlt]
        · rw [if_neg hk]
      next =>
        rw [lookup_toMap_cons, lookup_toMap_cons, ih hl]
        by_cases hk : k' = k
        · rw [if_pos hk, if_pos hk, if_neg (fun h => hne (h.symm.trans hk))]
        · rw [if_neg hk, if_neg hk]

/-! ## Buckets -/

variable (hash : κ → Nat)

/-- Every element sits in the bucket its key hashes to. -/
def Placed (bs : List (List ε)) : Prop :=
  ∀ i (h : i < bs.length), ∀ e ∈ bs[i], hash (key e) = i

/-- Buckets that are sorted and correctly placed. -/
structure Buckets (bs : List (List ε)) : Prop where
  sorted : ∀ b ∈ bs, SortedKeys key b
  placed : Placed key hash bs

variable {key hash}

/-- Distinct buckets hold distinct keys, so a whole family has distinct keys. -/
theorem Buckets.nodup {bs : List (List ε)} (hb : Buckets key hash bs) :
    (bs.flatten.map key).Nodup := by
  rw [List.map_flatten, List.nodup_flatten]
  constructor
  · intro ks hks
    obtain ⟨b, hmem, rfl⟩ := List.mem_map.mp hks
    exact (hb.sorted b hmem).nodup
  · rw [List.pairwise_map, List.pairwise_iff_getElem]
    intro i j hi hj hij k hki hkj
    obtain ⟨e, he, rfl⟩ := List.mem_map.mp hki
    obtain ⟨e', he', hk⟩ := List.mem_map.mp hkj
    have h₁ := hb.placed i hi e he
    have h₂ := hb.placed j hj e' he'
    rw [hk, h₁] at h₂
    exact absurd h₂ (Nat.ne_of_lt hij)

/-- A lookup in the family is a lookup in the bucket the key hashes to. -/
theorem Buckets.lookup {bs : List (List ε)} (hb : Buckets key hash bs) {k : κ}
    (hk : hash k < bs.length) :
    (toMap key val bs.flatten).lookup k = (toMap key val bs[hash k]).lookup k := by
  have hmem : bs[hash k] ∈ bs := List.getElem_mem hk
  apply Option.ext
  intro v
  rw [lookup_toMap_eq_some key val hb.nodup,
    lookup_toMap_eq_some key val (hb.sorted _ hmem).nodup]
  constructor
  · intro ⟨e, he, hke, hv⟩
    obtain ⟨b, hbmem, heb⟩ := List.mem_flatten.mp he
    obtain ⟨i, hi, rfl⟩ := List.mem_iff_getElem.mp hbmem
    have hplace := hb.placed i hi e heb
    rw [hke] at hplace
    subst hplace
    exact ⟨e, heb, hke, hv⟩
  · intro ⟨e, he, hkv⟩
    exact ⟨e, List.mem_flatten.mpr ⟨_, hmem, he⟩, hkv⟩

/-- A bucket answers for the keys of its hash only. -/
theorem Buckets.lookup_bucket {bs : List (List ε)} (hb : Buckets key hash bs) {i : Nat}
    (hi : i < bs.length) (k : κ) :
    (toMap key val bs[i]).lookup k
      = if hash k = i then (toMap key val bs.flatten).lookup k else none := by
  split
  next h =>
    subst h
    exact (hb.lookup val hi).symm
  next h =>
    rw [lookup_toMap_eq_none]
    intro e he hk
    exact h (hk ▸ hb.placed i hi e he)

/-- A family is determined by its map and its number of buckets. -/
theorem Buckets.listing_eq {bs₁ bs₂ : List (List ε)} (hb₁ : Buckets key hash bs₁)
    (hb₂ : Buckets key hash bs₂) (hlen : bs₁.length = bs₂.length)
    (hmap : toMap key val bs₁.flatten = toMap key val bs₂.flatten) :
    listing key val bs₁.flatten = listing key val bs₂.flatten := by
  have hbuckets : bs₁.map (listing key val) = bs₂.map (listing key val) := by
    refine List.ext_getElem (by simpa using hlen) fun i hi₁ hi₂ => ?_
    rw [List.length_map] at hi₁ hi₂
    rw [List.getElem_map, List.getElem_map]
    refine SortedKeys.listing_eq key val (hb₁.sorted _ (List.getElem_mem hi₁))
      (hb₂.sorted _ (List.getElem_mem hi₂)) (Finmap.ext_lookup fun k => ?_)
    rw [hb₁.lookup_bucket val hi₁, hb₂.lookup_bucket val hi₂, hmap]
  unfold listing at hbuckets ⊢
  rw [List.map_flatten, List.map_flatten, hbuckets]

/-- Replacing one bucket by a sorted one with elements of the right hash keeps
the family well formed. -/
theorem Buckets.set {bs : List (List ε)} (hb : Buckets key hash bs) {i : Nat} {b : List ε}
    (hs : SortedKeys key b) (hp : ∀ e ∈ b, hash (key e) = i) :
    Buckets key hash (bs.set i b) where
  sorted := by
    intro b' hb'
    rcases List.mem_or_eq_of_mem_set hb' with h | rfl
    · exact hb.sorted b' h
    · exact hs
  placed := by
    intro j hj e he
    rw [List.getElem_set] at he
    split at he
    next h => exact h ▸ hp e he
    next => exact hb.placed j (by simpa using hj) e he

/-- The effect of replacing the bucket of `k` on the whole family: only the
answers for keys of that bucket can change. -/
theorem Buckets.lookup_set {bs : List (List ε)} (hb : Buckets key hash bs) {i : Nat} {b : List ε}
    (hs : SortedKeys key b) (hp : ∀ e ∈ b, hash (key e) = i) {k : κ} (hk : hash k < bs.length) :
    (toMap key val (bs.set i b).flatten).lookup k
      = if hash k = i then (toMap key val b).lookup k else (toMap key val bs.flatten).lookup k := by
  have hset := hb.set hs hp
  rw [hset.lookup val (by simpa using hk), hb.lookup val hk, List.getElem_set]
  by_cases h : hash k = i
  · rw [if_pos h, if_pos h.symm]
  · rw [if_neg h, if_neg (fun he => h he.symm)]

end SortedMap
