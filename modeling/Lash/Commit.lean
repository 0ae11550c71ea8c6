import Lash.Reopen

/-!
# Data sets between the bus and a store

What a `CommitDataSet` call puts into a store, and that a `LoadDataSet` call gets the same values
out again: `commitConfigs` sets the entries in front of the first one it cannot take, and
`storeCreateConfigArray` makes of each value the variant it came from.
-/

namespace Lash

/-! ## Taking entries -/

theorem methodIterGetDictEntry_key {elem : ArrayElem} {key : CStr} {value : List UInt8}
    {type : UInt8} (h : methodIterGetDictEntry elem = some (key, value, type)) : 0 ∉ key := by
  unfold methodIterGetDictEntry at h
  split at h
  · next k v =>
      have hkey : key = k.1 := by
        split at h
        all_goals first
          | (obtain ⟨rfl, -⟩ := Prod.mk.inj (Option.some.inj h); rfl)
          | simp at h
      rw [hkey]
      exact k.2.2.1
  · simp at h

/-- What `getAndSetConfig` sets, if it takes an element. -/
def takenEntry (elem : ArrayElem) : Option Setting :=
  match methodIterGetDictEntry elem with
  | none => none
  | some (key, value, type) =>
    if h : (key ≠ [] ∧ 0 ∉ key) ∧ value ≠ [] ∧ ApiType type then
      some ⟨key, value, type, h.1, h.2.1, h.2.2⟩
    else none

theorem getAndSetConfig_eq (st : Store) (elem : ArrayElem) :
    getAndSetConfig st elem =
      match takenEntry elem with
      | none => (false, st)
      | some x => (true, (storeSetConfig st x.key x.value x.type).2) := by
  unfold getAndSetConfig takenEntry
  cases hentry : methodIterGetDictEntry elem with
  | none => rfl
  | some r =>
      obtain ⟨key, value, type⟩ := r
      have hzero := methodIterGetDictEntry_key hentry
      dsimp only
      show (if ApiType type then storeSetConfig st key value type else (false, st)) = _
      by_cases htype : ApiType type
      · rw [if_pos htype]
        by_cases hbad : key = [] ∨ value = []
        · rw [dif_neg (by tauto), storeSetConfig, if_pos hbad]
        · have hgood : (key ≠ [] ∧ 0 ∉ key) ∧ value ≠ [] ∧ ApiType type := by tauto
          rw [dif_pos hgood]
          exact Prod.ext (storeSetConfig_fields st hgood.1.1 hgood.2.1 type).1 rfl
      · rw [if_neg htype, dif_neg (fun h => htype h.2.2)]

/-- The entries in front of the first one that cannot be taken. -/
def taken : List ArrayElem → List Setting
  | [] => []
  | elem :: elems =>
    match takenEntry elem with
    | none => []
    | some x => x :: taken elems

/-- **`commitConfigs` sets what it takes**, and succeeds if it takes everything. -/
theorem commitConfigs_eq (st : Store) (elems : List ArrayElem) :
    (commitConfigs st elems).2 = st.setAll (taken elems) ∧
      ((commitConfigs st elems).1 = true ↔ ∀ elem ∈ elems, (takenEntry elem).isSome) := by
  induction elems generalizing st with
  | nil => exact ⟨rfl, by simp [commitConfigs]⟩
  | cons elem elems ih =>
      rw [commitConfigs, taken, getAndSetConfig_eq]
      cases htaken : takenEntry elem with
      | none => exact ⟨rfl, by simp [htaken]⟩
      | some x =>
          obtain ⟨hstore, hok⟩ := ih (storeSetConfig st x.key x.value x.type).2
          refine ⟨hstore, ?_⟩
          dsimp only
          rw [hok]
          simp [htaken]

/-! ## Values -/

/-- A value that a store takes. -/
def Variant.Storable : Variant → Prop
  | .double _ | .uint32 _ | .string _ => True
  | .bytes s => s.1 ≠ []
  | .array | .basic _ => False

instance (v : Variant) : Decidable v.Storable := by
  rcases v <;> unfold Variant.Storable <;> infer_instance

/-- The element that carries an entry. -/
def Entry.elem (e : Entry) : ArrayElem := .dictEntry (some e.1) (some e.2)

theorem toDbusString_val (s : DbusString) : toDbusString s.1 = some s := dif_pos s.2

theorem toDbusString_some {s : CStr} {d : DbusString} (h : toDbusString s = some d) : d.1 = s := by
  unfold toDbusString at h
  split at h
  · rw [← Option.some.inj h]
  · cases h

/-- **A value survives the way into a store and out of it.** -/
theorem takenEntry_elem {e : Entry} (hkey : e.1.1 ≠ []) (hvalue : e.2.Storable) :
    ∃ x, takenEntry e.elem = some x ∧ x.key = e.1.1 ∧ x.value.length < 2 ^ 32 ∧
      configVariant x.value x.type = some (some e.2) := by
  obtain ⟨k, v⟩ := e
  have hfound : ∀ value type, methodIterGetDictEntry (Entry.elem (k, v)) = some (k.1, value, type) →
      value ≠ [] → ApiType type → value.length < 2 ^ 32 → configVariant value type = some (some v) →
      ∃ x, takenEntry (Entry.elem (k, v)) = some x ∧ x.key = k.1 ∧ x.value.length < 2 ^ 32 ∧
        configVariant x.value x.type = some (some v) := by
    intro value type hentry hne htype hlen hvar
    refine ⟨⟨k.1, value, type, ⟨hkey, k.2.2.1⟩, hne, htype⟩, ?_, rfl, hlen, hvar⟩
    rw [takenEntry, hentry]
    exact dif_pos ⟨⟨hkey, k.2.2.1⟩, hne, htype⟩
  cases v with
  | double bits =>
      have hlen := leBytes_length 8 bits.toNat
      refine hfound _ _ rfl (fun h => by rw [h] at hlen; simp at hlen) (by decide) (by omega) ?_
      rw [configVariant, if_pos rfl, if_neg (by omega), List.take_of_length_le (by omega),
        leValue_leBytes, show 256 ^ 8 = 2 ^ 64 by norm_num, Nat.mod_eq_of_lt bits.isLt,
        BitVec.ofNat_toNat, BitVec.setWidth_eq]
  | uint32 n =>
      have hlen := leBytes_length 4 n.toNat
      refine hfound _ _ rfl (fun h => by rw [h] at hlen; simp at hlen) (by decide) (by omega) ?_
      rw [configVariant, if_neg (by decide), if_pos rfl, if_neg (by omega),
        List.take_of_length_le (by omega), leValue_leBytes, show 256 ^ 4 = 2 ^ 32 by norm_num,
        Nat.mod_eq_of_lt n.isLt, BitVec.ofNat_toNat, BitVec.setWidth_eq]
  | string s =>
      have hlen : (s.1 ++ [0]).length < 2 ^ 32 := by
        have := s.2.2.2
        rw [List.length_append, List.length_singleton]
        omega
      refine hfound _ _ rfl (by simp) (by decide) hlen ?_
      have htake : (s.1 ++ [0]).takeWhile (· ≠ 0) = s.1 :=
        (takeWhile_append_of_stop (s := s.1) (b := 0) (fun c hc => by
          have hne : c ≠ 0 := fun he => s.2.2.1 (he ▸ hc)
          simpa using hne) (by simp) []).1
      rw [configVariant, if_neg (by decide), if_neg (by decide), if_pos rfl, if_neg (by simp),
        htake, toDbusString_val]
      rfl
  | bytes s =>
      have hlen : s.1.length < 2 ^ 32 := lt_of_le_of_lt s.2 (by norm_num)
      refine hfound _ _ rfl hvalue (by decide) hlen ?_
      rw [configVariant, if_neg (by decide), if_neg (by decide), if_neg (by decide), if_pos rfl,
        dif_pos s.2]
  | array => exact hvalue.elim
  | basic t => exact hvalue.elim

/-! ## Making the array -/

/-- What `storeCreateConfigArray` makes of a store in which each key gives nothing or the value of
an entry. -/
theorem storeCreateConfigArray_eq {st : Store} {fs : Fs} {keys : List CStr}
    {f : CStr → Option Entry}
    (h : ∀ k ∈ keys, storeGetConfig st fs k = none ∧ f k = none ∨
      ∃ e value type, f k = some e ∧ e.1.1 = k ∧ storeGetConfig st fs k = some (value, type) ∧
        configVariant value type = some (some e.2)) :
    storeCreateConfigArray st fs keys = some (some (keys.filterMap f)) := by
  induction keys with
  | nil => rfl
  | cons k keys ih =>
      have hrest := ih fun k hk => h k (List.mem_cons_of_mem _ hk)
      rw [storeCreateConfigArray]
      rcases h k List.mem_cons_self with ⟨hget, hf⟩ | ⟨e, value, type, hf, rfl, hget, hvar⟩
      · rw [hget, List.filterMap_cons_none hf]
        exact hrest
      · rw [hget, List.filterMap_cons_some hf]
        dsimp only
        rw [toDbusString_val]
        dsimp only
        rw [hvar, hrest]
        rfl

/-- A key that gives a value is in the array. -/
theorem mem_storeCreateConfigArray {st : Store} {fs : Fs} {keys : List CStr} {configs : List Entry}
    (h : storeCreateConfigArray st fs keys = some (some configs)) {k : CStr} (hk : k ∈ keys)
    (hget : (storeGetConfig st fs k).isSome) : ∃ e ∈ configs, e.1.1 = k := by
  induction keys generalizing configs with
  | nil => simp at hk
  | cons k' keys ih =>
      rw [storeCreateConfigArray] at h
      split at h
      · next hnone =>
          rcases List.mem_cons.mp hk with rfl | hk
          · simp [hnone] at hget
          · exact ih h hk
      · split at h
        · simp at h
        · next s hs =>
            split at h
            · simp at h
            · simp at h
            · next v _ =>
                obtain ⟨r, hr, hmap⟩ := Option.map_eq_some_iff.mp h
                obtain ⟨rest, rfl, rfl⟩ := Option.map_eq_some_iff.mp hmap
                rcases List.mem_cons.mp hk with rfl | hk
                · exact ⟨(s, v), List.mem_cons_self, toDbusString_some hs⟩
                · obtain ⟨e, he, hkey⟩ := ih hr hk
                  exact ⟨e, List.mem_cons_of_mem _ he, hkey⟩

/-- The array has an entry for each key that gives a value, and the values are those of the store.
-/
theorem storeCreateConfigArray_spec {st : Store} {fs : Fs} {keys : List CStr} {configs : List Entry}
    (h : storeCreateConfigArray st fs keys = some (some configs)) :
    configs.map (fun e => e.1.1) = keys.filter (fun k => (storeGetConfig st fs k).isSome) ∧
      ∀ e ∈ configs, ∃ value type, storeGetConfig st fs e.1.1 = some (value, type) ∧
        configVariant value type = some (some e.2) := by
  induction keys generalizing configs with
  | nil =>
      cases h
      exact ⟨rfl, fun e he => absurd he List.not_mem_nil⟩
  | cons k keys ih =>
      rw [storeCreateConfigArray] at h
      split at h
      · next hnone =>
          rw [List.filter_cons_of_neg (by simp [hnone])]
          exact ih h
      · next value type hget =>
          split at h
          · cases h
          · next s hs =>
              have hkey : s.1 = k := toDbusString_some hs
              split at h
              · cases h
              · cases h
              · next v hvar =>
                  obtain ⟨r, hr, hmap⟩ := Option.map_eq_some_iff.mp h
                  obtain ⟨rest, rfl, rfl⟩ := Option.map_eq_some_iff.mp hmap
                  obtain ⟨hkeys, hvalues⟩ := ih hr
                  rw [List.filter_cons_of_pos (by simp [hget]), List.map_cons, hkeys, hkey]
                  refine ⟨rfl, fun e he => ?_⟩
                  rcases List.mem_cons.mp he with rfl | he
                  · exact ⟨value, type, hkey ▸ hget, hvar⟩
                  · exact hvalues e he

end Lash
