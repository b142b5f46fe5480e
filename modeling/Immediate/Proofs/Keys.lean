import Immediate.Proofs.Typing
/-! Maps as finite maps. Insertion changes what is found under one key, up to sameness, and keeps keys
apart, and a cast of a value whose maps keep their keys apart gives such a value again. -/
namespace Immediate.Value

variable {pairs : List (Value × Slot)} {key other : Value} {slot : Slot}

/-! ### Lookup -/

/-- The same key finds the same slot. -/
theorem lookup_congr (keyed : PairsKeyed pairs) (first : key.Keyed) (second : other.Keyed)
    (held : same key other = true) : lookup pairs other = lookup pairs key := by
  rw [lookup, lookup, find_of_same keyed.keys first second held]

/-- An inserted slot is found by the same key. -/
theorem lookup_insert_of_same (keyed : PairsKeyed pairs) (first : key.Keyed) (second : other.Keyed)
    (held : same key other = true) (slot : Slot) :
    lookup (insert pairs key slot) other = some slot := by
  have each : ∀ pair ∈ pairs, same other pair.1 = same key pair.1 := fun pair member =>
    same_left_congr first second (keyed.keys pair member) held
  clear keyed
  induction pairs with
  | nil =>
    have mirrored : same other key = true := (same_comm second first).trans held
    rw [insert, lookup_cons, if_pos mirrored]
  | cons head rest ih =>
    have atHead := each head List.mem_cons_self
    unfold insert
    by_cases here : same key head.1 = true
    · rw [if_pos here, lookup_cons, atHead, if_pos here]
    · rw [if_neg here, lookup_cons, atHead, if_neg here,
        ih fun pair member => each pair (List.mem_cons_of_mem _ member)]

theorem lookup_insert_of_apart (keyed : PairsKeyed pairs) (first : key.Keyed) (second : other.Keyed)
    (apart : same key other = false) (slot : Slot) :
    lookup (insert pairs key slot) other = lookup pairs other := by
  have keys := keyed.keys
  clear keyed
  induction pairs with
  | nil =>
    have missed : same other key = false := (same_comm second first).trans apart
    rw [insert, lookup_cons, missed]
    rfl
  | cons head rest ih =>
    have headKeyed := keys head List.mem_cons_self
    unfold insert
    by_cases here : same key head.1 = true
    · have missed : same other head.1 = false := by
        rw [same_comm second headKeyed, same_left_congr first headKeyed second here]
        exact apart
      rw [if_pos here, lookup_cons, lookup_cons, missed]
      rfl
    · rw [if_neg here, lookup_cons, lookup_cons,
        ih fun pair member => keys pair (List.mem_cons_of_mem _ member)]

/-! ### Keeping keys apart -/

theorem PairsKeyed.nil : PairsKeyed [] := ⟨.nil, nofun, nofun⟩

private theorem keysApart_insert (keys : ∀ pair ∈ pairs, pair.1.Keyed) (own : key.Keyed)
    (apart : KeysApart pairs) : KeysApart (insert pairs key slot) := by
  induction pairs with
  | nil => exact List.pairwise_singleton ..
  | cons head rest ih =>
    obtain ⟨headApart, restApart⟩ := List.pairwise_cons.mp apart
    have restKeys : ∀ pair ∈ rest, pair.1.Keyed := fun pair member =>
      keys pair (List.mem_cons_of_mem _ member)
    unfold insert
    by_cases here : same key head.1 = true
    · rw [if_pos here]
      exact List.pairwise_cons.mpr ⟨headApart, restApart⟩
    · rw [if_neg here]
      refine List.pairwise_cons.mpr ⟨fun pair member => ?_, ih restKeys restApart⟩
      rcases mem_insert member with inside | ⟨-, ⟨spelled, inside, equal⟩ | ⟨equal, -⟩⟩
      · exact headApart pair inside
      · rw [← equal]
        exact headApart spelled inside
      · rw [equal, same_comm (keys head List.mem_cons_self) own]
        exact eq_false_of_ne_true here

theorem PairsKeyed.insert (keyed : PairsKeyed pairs) (own : key.Keyed) (value : SlotKeyed slot) :
    PairsKeyed (insert pairs key slot) := by
  refine ⟨keysApart_insert keyed.keys own keyed.apart, fun pair member => ?_, fun pair member => ?_⟩
  · rcases mem_insert member with inside | ⟨-, ⟨spelled, inside, equal⟩ | ⟨equal, -⟩⟩
    · exact keyed.keys pair inside
    · rw [← equal]
      exact keyed.keys spelled inside
    · rw [equal]
      exact own
  · rcases mem_insert member with inside | ⟨equal, -⟩
    · exact keyed.values pair inside
    · rw [equal]
      exact value

theorem PairsKeyed.insertAll {more : List (Value × Slot)} (keyed : PairsKeyed pairs)
    (each : ∀ pair ∈ more, pair.1.Keyed ∧ SlotKeyed pair.2) : PairsKeyed (insertAll pairs more) := by
  induction more generalizing pairs with
  | nil => exact keyed
  | cons pair rest ih =>
    obtain ⟨own, value⟩ := each pair List.mem_cons_self
    exact ih (keyed.insert own value) fun other member => each other (List.mem_cons_of_mem _ member)

theorem PairsKeyed.erase (keyed : PairsKeyed pairs) (key : Value) : PairsKeyed (erase pairs key) := by
  have kept := erase_sublist pairs key
  exact ⟨keyed.apart.sublist kept, fun pair member => keyed.keys pair (kept.subset member),
    fun pair member => keyed.values pair (kept.subset member)⟩

theorem PairsKeyed.lookup (keyed : PairsKeyed pairs) (found : lookup pairs key = some slot) :
    SlotKeyed slot := by
  obtain ⟨pair, member, -, rfl⟩ := exists_of_lookup found
  exact keyed.values pair member

/-! ### Inserting pairs that are apart -/

section Inserted
variable {more : List (Value × Slot)}

theorem PairsKeyed.tail {head : Value × Slot} (keyed : PairsKeyed (head :: pairs)) :
    PairsKeyed pairs :=
  ⟨(List.pairwise_cons.mp keyed.apart).2, fun pair member => keyed.keys pair (.tail _ member),
    fun pair member => keyed.values pair (.tail _ member)⟩

theorem lookup_of_insert_eq_none (absent : lookup (insert pairs key slot) other = none) :
    lookup pairs other = none := by
  induction pairs with
  | nil => rfl
  | cons head rest ih =>
    unfold Value.insert at absent
    split at absent
    · rw [lookup_cons] at absent ⊢
      split at absent
      · cases absent
      · rename_i missed
        rw [if_neg missed]
        exact absent
    · rw [lookup_cons] at absent ⊢
      split at absent
      · cases absent
      · rename_i missed
        rw [if_neg missed]
        exact ih absent

/-- Insertion leaves every key where it stands. -/
theorem exists_of_mem_insert (member : key ∈ pairs.map (·.1)) (other : Value) (slot : Slot) :
    key ∈ (insert pairs other slot).map (·.1) := by
  induction pairs with
  | nil => cases member
  | cons head rest ih =>
    unfold Value.insert
    rcases List.mem_cons.mp member with rfl | later
    · split <;> exact List.mem_cons_self
    · split
      · exact List.mem_cons_of_mem _ later
      · exact List.mem_cons_of_mem _ (ih later)

theorem mem_insert_self (absent : lookup pairs key = none) :
    key ∈ (insert pairs key slot).map (·.1) := by
  induction pairs with
  | nil => exact List.mem_cons_self
  | cons head rest ih =>
    rw [lookup_cons] at absent
    split at absent
    · cases absent
    · rename_i missed
      unfold Value.insert
      rw [if_neg missed]
      exact List.mem_cons_of_mem _ (ih absent)

theorem mem_keys_insertAll (member : key ∈ pairs.map (·.1)) (more : List (Value × Slot)) :
    key ∈ (insertAll pairs more).map (·.1) := by
  induction more generalizing pairs with
  | nil => exact member
  | cons pair rest ih => exact ih (exists_of_mem_insert member pair.1 pair.2)

/-- Among pairs that are apart, a key that was not there before is there afterwards. -/
theorem mem_keys_insertAll_of_absent (keyed : PairsKeyed pairs) (moreKeyed : PairsKeyed more)
    {pair : Value × Slot} (member : pair ∈ more) (absent : lookup pairs pair.1 = none) :
    pair.1 ∈ (insertAll pairs more).map (·.1) := by
  induction more generalizing pairs with
  | nil => cases member
  | cons head rest ih =>
    rcases List.mem_cons.mp member with rfl | later
    · exact mem_keys_insertAll (mem_insert_self absent) rest
    · have headKeyed := moreKeyed.keys head List.mem_cons_self
      have apart := (List.pairwise_cons.mp moreKeyed.apart).1 pair later
      have stillAbsent : lookup (insert pairs head.1 head.2) pair.1 = none := by
        rw [lookup_insert_of_apart keyed headKeyed (moreKeyed.keys pair member) apart]
        exact absent
      exact ih (keyed.insert headKeyed (moreKeyed.values head List.mem_cons_self)) moreKeyed.tail
        later stillAbsent

/-- A key finds nothing among pairs with other keys. -/
theorem lookup_eq_none (moreKeyed : PairsKeyed more) (own : key.Keyed)
    (apart : ∀ pair ∈ more, same pair.1 key = false) : lookup more key = none := by
  induction more with
  | nil => rfl
  | cons head rest ih =>
    have missed : same key head.1 = false := by
      rw [same_comm own (moreKeyed.keys head List.mem_cons_self)]
      exact apart head List.mem_cons_self
    rw [lookup_cons, missed]
    exact ih moreKeyed.tail fun pair member => apart pair (List.mem_cons_of_mem _ member)

/-- Pairs that are inserted later win. -/
theorem lookup_insertAll (keyed : PairsKeyed pairs) (moreKeyed : PairsKeyed more)
    (own : key.Keyed) :
    lookup (insertAll pairs more) key = (lookup more key).or (lookup pairs key) := by
  induction more generalizing pairs with
  | nil => rfl
  | cons head rest ih =>
    have headKeyed := moreKeyed.keys head List.mem_cons_self
    have inserted := keyed.insert headKeyed (moreKeyed.values head List.mem_cons_self)
    have step : lookup (insertAll pairs (head :: rest)) key =
        (lookup rest key).or (lookup (insert pairs head.1 head.2) key) := ih inserted moreKeyed.tail
    rw [step, lookup_cons, same_comm own headKeyed]
    cases here : same head.1 key with
    | true =>
      -- No later pair has this key again.
      have others : ∀ pair ∈ rest, same pair.1 key = false := by
        intro pair member
        have pairKeyed := moreKeyed.tail.keys pair member
        rw [same_comm pairKeyed own, same_left_congr headKeyed own pairKeyed here]
        exact (List.pairwise_cons.mp moreKeyed.apart).1 pair member
      rw [lookup_eq_none moreKeyed.tail own others, Option.none_or,
        lookup_insert_of_same keyed headKeyed own here]
      rfl
    | false =>
      rw [lookup_insert_of_apart keyed headKeyed own here]
      rfl

/-- Among pairs that are apart, every key finds its own slot afterwards. -/
theorem lookup_insertAll_of_mem (keyed : PairsKeyed pairs) (moreKeyed : PairsKeyed more)
    {pair : Value × Slot} (member : pair ∈ more) :
    lookup (insertAll pairs more) pair.1 = some pair.2 := by
  rw [lookup_insertAll keyed moreKeyed (moreKeyed.keys pair member), lookup_of_mem moreKeyed member]
  rfl

/-! ### Finding pairs -/

/-- Among pairs that are apart, one with a key is the only one. -/
theorem eq_of_same_keys (keyed : PairsKeyed pairs) {pair found : Value × Slot}
    (member : pair ∈ pairs) (inside : found ∈ pairs) (held : same pair.1 found.1 = true) :
    pair = found := by
  induction pairs with
  | nil => cases member
  | cons head rest ih =>
    have headApart := (List.pairwise_cons.mp keyed.apart).1
    rcases List.mem_cons.mp member with rfl | later
    · rcases List.mem_cons.mp inside with rfl | behind
      · rfl
      · exact absurd held (Bool.eq_false_iff.mp (headApart found behind))
    · rcases List.mem_cons.mp inside with rfl | behind
      · rw [same_comm (keyed.keys pair member) (keyed.keys found inside)] at held
        exact absurd held (Bool.eq_false_iff.mp (headApart pair later))
      · exact ih keyed.tail later behind

/-- What a key finds is the pair under it, wherever it stands. -/
theorem find_eq_some_iff (keyed : PairsKeyed pairs) (own : key.Keyed) {pair : Value × Slot} :
    pairs.find? (fun other => same key other.1) = some pair ↔
      pair ∈ pairs ∧ same key pair.1 = true := by
  refine ⟨fun found => ⟨List.mem_of_find?_eq_some found, same_of_find found⟩, ?_⟩
  rintro ⟨member, held⟩
  cases search : pairs.find? (fun other => same key other.1) with
  | none => exact absurd held (List.find?_eq_none.mp search pair member)
  | some found =>
    have inside := List.mem_of_find?_eq_some search
    have partner : same pair.1 found.1 = true := by
      rw [same_left_congr own (keyed.keys pair member) (keyed.keys found inside) held]
      exact same_of_find search
    rw [eq_of_same_keys keyed member inside partner]

/-- Pairs are found in a map if each of them has a partner there. -/
theorem pairsWithin_iff_mem (keys : ∀ pair ∈ pairs, pair.1.Keyed) (moreKeyed : PairsKeyed more) :
    pairsWithin pairs more = true ↔ ∀ pair ∈ pairs, ∃ other ∈ more,
      same pair.1 other.1 = true ∧ sameSlot pair.2 other.2 = true := by
  rw [pairsWithin_iff]
  refine forall₂_congr fun pair member => exists_congr fun other => ?_
  rw [find_eq_some_iff moreKeyed (keys pair member), and_assoc]

/-! ### Merging maps -/

theorem PairsKeyed.merge (keyed : PairsKeyed pairs) (moreKeyed : PairsKeyed more) :
    PairsKeyed (Value.insertAll pairs more) :=
  keyed.insertAll fun pair member => ⟨moreKeyed.keys pair member, moreKeyed.values pair member⟩

/-- Insertion leaves the keys in place, and a new one goes to the end. -/
theorem keys_insert (pairs : List (Value × Slot)) (key : Value) (slot : Slot) :
    (insert pairs key slot).map (·.1) =
      pairs.map (·.1) ++ if (lookup pairs key).isNone then [key] else [] := by
  induction pairs with
  | nil => rfl
  | cons head rest ih =>
    unfold insert
    by_cases here : same key head.1 = true
    · rw [if_pos here, lookup_cons, if_pos here]
      exact (List.append_nil _).symm
    · rw [if_neg here, lookup_cons, if_neg here, List.map_cons, ih]
      rfl

theorem keys_insertAll (keyed : PairsKeyed pairs) (moreKeyed : PairsKeyed more) :
    (insertAll pairs more).map (·.1) =
      pairs.map (·.1) ++ (more.map (·.1)).filter fun key => (lookup pairs key).isNone := by
  induction more generalizing pairs with
  | nil => exact (List.append_nil _).symm
  | cons head rest ih =>
    have headKeyed := moreKeyed.keys head List.mem_cons_self
    have inserted := keyed.insert headKeyed (moreKeyed.values head List.mem_cons_self)
    have step : (insertAll pairs (head :: rest)).map (·.1) = (insert pairs head.1 head.2).map (·.1) ++
        (rest.map (·.1)).filter fun key => (lookup (insert pairs head.1 head.2) key).isNone :=
      ih inserted moreKeyed.tail
    -- The keys behind the first one are new to the map with it where they are without it.
    have others : (rest.map (·.1)).filter (fun key =>
          (lookup (insert pairs head.1 head.2) key).isNone) =
        (rest.map (·.1)).filter fun key => (lookup pairs key).isNone := by
      refine List.filter_congr fun key member => ?_
      obtain ⟨pair, inside, rfl⟩ := List.mem_map.mp member
      have apart := (List.pairwise_cons.mp moreKeyed.apart).1 pair inside
      rw [lookup_insert_of_apart keyed headKeyed (moreKeyed.tail.keys pair inside) apart]
    rw [step, others, keys_insert, List.append_assoc, List.map_cons, List.filter_cons]
    cases (lookup pairs head.1).isNone <;> rfl

/-- A map is known by the order of its keys and by what stands under each. -/
theorem eq_of_keys_of_lookup (keyed : PairsKeyed pairs) (moreKeyed : PairsKeyed more)
    (keys : pairs.map (·.1) = more.map (·.1))
    (found : ∀ key : Value, key.Keyed → lookup pairs key = lookup more key) : pairs = more := by
  have lengths : pairs.length = more.length := by
    rw [← List.length_map, keys, List.length_map]
  refine List.ext_getElem lengths fun i inPairs inMore => ?_
  have sameKey : pairs[i].1 = more[i].1 := by
    have inKeys : i < (pairs.map (·.1)).length := by rwa [List.length_map]
    simpa only [List.getElem_map] using List.getElem_of_eq keys inKeys
  have member := List.getElem_mem inPairs
  have sameSlot : some pairs[i].2 = some more[i].2 := by
    rw [← lookup_of_mem keyed member, ← lookup_of_mem moreKeyed (List.getElem_mem inMore),
      ← sameKey, found _ (keyed.keys _ member)]
  exact Prod.ext sameKey (Option.some.inj sameSlot)

/-- Maps are merged one after another as all that come later are merged first. -/
theorem insertAll_insertAll {others : List (Value × Slot)} (keyed : PairsKeyed pairs)
    (moreKeyed : PairsKeyed more) (othersKeyed : PairsKeyed others) :
    insertAll (insertAll pairs more) others = insertAll pairs (insertAll more others) := by
  have first := keyed.merge moreKeyed
  have second := moreKeyed.merge othersKeyed
  refine eq_of_keys_of_lookup (first.merge othersKeyed) (keyed.merge second) ?_ fun key own => ?_
  · rw [keys_insertAll first othersKeyed, keys_insertAll keyed moreKeyed, keys_insertAll keyed second,
      keys_insertAll moreKeyed othersKeyed, List.filter_append, List.filter_filter,
      List.append_assoc]
    congr 2
    refine List.filter_congr fun key member => ?_
    obtain ⟨pair, inside, rfl⟩ := List.mem_map.mp member
    rw [lookup_insertAll keyed moreKeyed (othersKeyed.keys pair inside)]
    cases lookup more pair.1 <;> cases lookup pairs pair.1 <;> rfl
  · rw [lookup_insertAll first othersKeyed own, lookup_insertAll keyed moreKeyed own,
      lookup_insertAll keyed second own, lookup_insertAll moreKeyed othersKeyed own, Option.or_assoc]

end Inserted

/-! ### Keyed values -/

theorem slotKeyed_none : SlotKeyed none := nofun

theorem slotKeyed_some {v : Value} (keyed : v.Keyed) : SlotKeyed (some v) := by
  rintro w ⟨⟩
  exact keyed

theorem keyed_of_scalar {v : Value} {s : Scalar} (kind : v.kind = .scalar s) : v.Keyed := by
  cases v with
  | list | iterator | map | entry => cases kind
  | _ => constructor

theorem keyed_entries {keyTy valueTy : Option Ty} (keyed : PairsKeyed pairs) :
    ∀ slot ∈ entries keyTy valueTy pairs, SlotKeyed slot := by
  intro slot member
  obtain ⟨⟨key, value⟩, inside, rfl⟩ := List.mem_map.mp member
  exact slotKeyed_some (keyed_entry_iff.mpr
    ⟨slotKeyed_some (keyed.keys _ inside), keyed.values _ inside⟩)

theorem keyed_unitSlots (s : String) : ∀ slot ∈ unitSlots s, SlotKeyed slot := by
  intro slot member
  obtain ⟨u, -, rfl⟩ := List.mem_map.mp member
  exact slotKeyed_some (.integer ..)

theorem Keyed.elementsKeyed {v : Value} {items : List Slot} (keyed : v.Keyed)
    (elements : v.elements? = some items) : ∀ slot ∈ items, SlotKeyed slot := by
  cases v with
  | list element items' =>
    cases elements
    exact keyed_list_iff.mp keyed
  | iterator element items' =>
    cases elements
    exact keyed_iterator_iff.mp keyed
  | map keyTy valueTy pairs =>
    cases elements
    exact keyed_entries (keyed_map_iff.mp keyed)
  | string s =>
    cases elements
    exact keyed_unitSlots s
  | _ => cases elements

private theorem keyed_pairsOfEntries {items : List Slot} (keyed : ∀ slot ∈ items, SlotKeyed slot)
    (made : pairsOfEntries? items = some pairs) :
    ∀ pair ∈ pairs, pair.1.Keyed ∧ SlotKeyed pair.2 := by
  intro pair member
  obtain ⟨keyTy, valueTy, inside⟩ := entry_of_mem_pairs made pair member
  obtain ⟨keyHalf, valueHalf⟩ := keyed_entry_iff.mp (keyed _ inside _ rfl)
  exact ⟨keyHalf pair.1 rfl, valueHalf⟩

theorem Keyed.pairsKeyed {v : Value} (keyed : v.Keyed) (made : v.pairs? = some pairs) :
    ∀ pair ∈ pairs, pair.1.Keyed ∧ SlotKeyed pair.2 := by
  cases v with
  | list element items => exact keyed_pairsOfEntries (keyed_list_iff.mp keyed) made
  | iterator element items => exact keyed_pairsOfEntries (keyed_iterator_iff.mp keyed) made
  | map keyTy valueTy pairs' =>
    cases made
    have whole := keyed_map_iff.mp keyed
    exact fun pair member => ⟨whole.keys pair member, whole.values pair member⟩
  | _ => cases made

/-! ### Casts -/

private abbrev KeepsKeyed (_ : Ty) (v w : Value) : Prop := v.Keyed → w.Keyed

private theorem slotKeyed_of_carried {known : Option Ty} {source out : Slot}
    (carried : Carried KeepsKeyed known source out) (keyed : SlotKeyed source) : SlotKeyed out := by
  cases known with
  | none =>
    rcases castSlot_eq_ok carried.cast with ⟨-, rfl⟩ | ⟨t, impossible, -⟩
    · exact keyed
    · cases impossible
  | some t =>
    intro w member
    obtain ⟨v, inside, -, passes⟩ := carried.each t rfl w member
    exact passes (keyed v inside)

private theorem itemsKeyed_of_carried {known : Ty} {items out : List Slot}
    (carried : ∀ slot ∈ out, ∃ source ∈ items, Carried KeepsKeyed (some known) source slot)
    (keyed : ∀ slot ∈ items, SlotKeyed slot) : ∀ slot ∈ out, SlotKeyed slot := by
  intro slot member
  obtain ⟨source, inside, held⟩ := carried slot member
  exact slotKeyed_of_carried held (keyed source inside)

private theorem keyed_alongCasts : AlongCasts KeepsKeyed where
  scalar converted _ := keyed_of_scalar (kind_of_toScalar converted)
  list _ elements _ carried keyed :=
    keyed_list_iff.mpr (itemsKeyed_of_carried carried (keyed.elementsKeyed elements))
  iterator _ elements _ carried keyed :=
    keyed_iterator_iff.mpr (itemsKeyed_of_carried carried (keyed.elementsKeyed elements))
  map _ _ _ made _ carried keyed := by
    refine keyed_map_iff.mpr (PairsKeyed.nil.insertAll fun pair member => ?_)
    obtain ⟨source, inside, ⟨-, key⟩, value⟩ := carried pair member
    obtain ⟨keyKeyed, valueKeyed⟩ := keyed.pairsKeyed made source inside
    exact ⟨key keyKeyed, slotKeyed_of_carried value valueKeyed⟩
  entry _ _ _ _ carriedKey carriedValue keyed := by
    obtain ⟨key, value⟩ := keyed_entry_iff.mp keyed
    exact keyed_entry_iff.mpr
      ⟨slotKeyed_of_carried carriedKey key, slotKeyed_of_carried carriedValue value⟩

/-- A cast keeps the keys of all maps apart. -/
theorem keyed_of_cast {t : Ty} {v w : Value} (keyed : v.Keyed) (held : cast t v = .ok w) : w.Keyed :=
  keyed_alongCasts.of_cast held keyed

theorem slotKeyed_of_castSlot {known : Option Ty} {source out : Slot} (keyed : SlotKeyed source)
    (held : castSlot known source = .ok out) : SlotKeyed out := by
  rcases castSlot_eq_ok held with ⟨-, rfl⟩ | ⟨t, -, ⟨-, rfl⟩ | ⟨v, w, rfl, rfl, cast⟩⟩
  · exact keyed
  · exact slotKeyed_none
  · exact slotKeyed_some (keyed_of_cast (keyed v rfl) cast)

end Immediate.Value
