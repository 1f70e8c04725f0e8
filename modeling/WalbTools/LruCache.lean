import WalbTools.IndexedReader

namespace WalbTools.LruCache

open ByteMemory
open scoped List

@[ext]
structure Key where
  tag : Nat
  addr : Nat
  deriving DecidableEq

structure Item where
  addr : Nat
  key : Key
  data : Bytes

/-- `lruList` is in the order of the last use, `map` leads to its elements; `next` is the
address of the next element. -/
structure IndexedDiffCache where
  maxBytes : Nat
  curBytes : Nat
  lruList : List Item
  map : AList fun _ : Key => Nat
  next : Nat

namespace IndexedDiffCache

def init (maxBytes : Nat) : IndexedDiffCache := ⟨maxBytes, 0, [], ∅, 0⟩

/-- An iterator that leads nowhere has no element. -/
def find (c : IndexedDiffCache) (key : Key) : Option (Option Bytes × IndexedDiffCache) :=
  match c.map.lookup key with
  | none => some (none, c)
  | some lit =>
      (c.lruList.find? fun item => decide (item.addr = lit)).map fun item =>
        (some item.data, { c with
          lruList := ⟨c.next, key, item.data⟩ :: c.lruList.eraseP fun item => decide (item.addr = lit)
          map := c.map.insert key c.next
          next := c.next + 1 })

def evictOne (c : IndexedDiffCache) : IndexedDiffCache :=
  match c.lruList.getLast? with
  | none => c
  | some item =>
      { c with
        map := c.map.erase item.key
        curBytes := c.curBytes - item.data.length
        lruList := c.lruList.dropLast }

def evict : Nat → IndexedDiffCache → Option IndexedDiffCache
  | 0, _ => none
  | fuel + 1, c =>
      if c.maxBytes < c.curBytes ∧ 1 < c.map.keys.length then evict fuel c.evictOne else some c

def add (c : IndexedDiffCache) (key : Key) (data : Bytes) : Option (Except String IndexedDiffCache) :=
  match c.map.lookup key with
  | some _ => some (.error "already in cache")
  | none =>
      (evict (c.lruList.length + 1) { c with
        curBytes := c.curBytes + data.length
        lruList := ⟨c.next, key, data⟩ :: c.lruList
        map := c.map.insert key c.next
        next := c.next + 1 }).map .ok

end IndexedDiffCache

inductive Call where
  | find (key : Key)
  | add (key : Key) (data : Bytes)

/-- After an exception the cache is as it was. -/
def IndexedDiffCache.step (c : IndexedDiffCache) : Call → Option IndexedDiffCache
  | .find key => (c.find key).map Prod.snd
  | .add key data => (c.add key data).map fun r => r.toOption.getD c

def IndexedDiffCache.run (c : IndexedDiffCache) (calls : List Call) : Option IndexedDiffCache :=
  calls.foldlM step c

def bytesOf (l : List Item) : Nat := (l.map fun item => item.data.length).sum

/-- The map has an entry for each element of the list, which leads to it. -/
structure Linked (c : IndexedDiffCache) : Prop where
  addr : (c.lruList.map Item.addr).Nodup
  fresh : ∀ item ∈ c.lruList, item.addr < c.next
  keys : c.map.keys ~ c.lruList.map Item.key
  place : ∀ item ∈ c.lruList, c.map.lookup item.key = some item.addr
  bytes : c.curBytes = bytesOf c.lruList

def Bounded (c : IndexedDiffCache) : Prop := c.curBytes ≤ c.maxBytes ∨ c.lruList.length ≤ 1

def Item.pair (item : Item) : (Nat × Nat) × Bytes := ((item.key.tag, item.key.addr), item.data)

/-- The cache as its readers see it. -/
def IndexedDiffCache.view (c : IndexedDiffCache) : IndexedReader.IndexedDiffCache :=
  ⟨c.maxBytes, c.lruList.map Item.pair⟩

def viewStep (v : IndexedReader.IndexedDiffCache) : Call → IndexedReader.IndexedDiffCache
  | .find key => (v.find (key.tag, key.addr)).2
  | .add key data => (v.add (key.tag, key.addr) data).toOption.getD v

variable {c : IndexedDiffCache} {key : Key} {item : Item} {l rest : List Item}

theorem Linked.nodup (L : Linked c) : (c.lruList.map Item.key).Nodup :=
  L.keys.nodup_iff.mp c.map.keys_nodup

theorem Linked.length_keys (L : Linked c) : c.map.keys.length = c.lruList.length :=
  L.keys.length_eq.trans (List.length_map _)

theorem bytesOf_perm {l' : List Item} (h : l ~ l') : bytesOf l = bytesOf l' := (h.map _).sum_eq

theorem bytesOf_cons : bytesOf (item :: l) = item.data.length + bytesOf l := rfl

theorem pair_fst_eq_iff : item.pair.1 = (key.tag, key.addr) ↔ item.key = key := by
  rw [Item.pair, Prod.mk.injEq, Key.ext_iff]

theorem Linked.view_curBytes (L : Linked c) : c.view.curBytes = c.curBytes := by
  rw [IndexedReader.IndexedDiffCache.curBytes, IndexedDiffCache.view, List.map_map, L.bytes]
  rfl

theorem view_evictOne : c.evictOne.view = c.view.evictOne := by
  rw [IndexedDiffCache.evictOne]
  cases h : c.lruList.getLast? with
  | none =>
      simp [IndexedDiffCache.view, IndexedReader.IndexedDiffCache.evictOne,
        List.getLast?_eq_none_iff.mp h]
  | some item => simp [IndexedDiffCache.view, IndexedReader.IndexedDiffCache.evictOne]

theorem linked_init (maxBytes : Nat) : Linked (.init maxBytes) :=
  ⟨List.nodup_nil, nofun, .refl _, nofun, rfl⟩

/-- A new element in front of those that stay; only elements of its key are gone. -/
theorem Linked.push (L : Linked c) (hsub : rest.Sublist c.lruList)
    (hkeys : c.map.keys.erase key ~ rest.map Item.key)
    (data : Bytes) {n : Nat} (hn : n = data.length + bytesOf rest) :
    Linked { c with
      curBytes := n
      lruList := ⟨c.next, key, data⟩ :: rest
      map := c.map.insert key c.next
      next := c.next + 1 } where
  addr := by
    rw [List.map_cons, List.nodup_cons]
    refine ⟨fun hm => ?_, L.addr.sublist (hsub.map _)⟩
    obtain ⟨item, hi, heq⟩ := List.mem_map.mp hm
    exact absurd (L.fresh item (hsub.subset hi)) (heq ▸ lt_irrefl _)
  fresh := by
    intro item hi
    rcases List.mem_cons.mp hi with rfl | hi
    · exact Nat.lt_succ_self _
    · exact (L.fresh item (hsub.subset hi)).trans (Nat.lt_succ_self _)
  keys := by
    rw [AList.keys_insert, List.map_cons]
    exact hkeys.cons key
  place := by
    intro item hi
    rcases List.mem_cons.mp hi with rfl | hi
    · exact AList.lookup_insert _
    · have hne : item.key ≠ key := by
        intro heq
        exact c.map.keys_nodup.not_mem_erase (hkeys.mem_iff.mpr (List.mem_map.mpr ⟨item, hi, heq⟩))
      rw [AList.lookup_insert_ne hne]
      exact L.place item (hsub.subset hi)
  bytes := hn

theorem Linked.lookup (L : Linked c) {lit : Nat} (h : c.map.lookup key = some lit) :
    ∃ l₁ item l₂, c.lruList = l₁ ++ item :: l₂ ∧ item.key = key ∧
      (c.lruList.find? fun item => decide (item.addr = lit)) = some item ∧
      (c.lruList.eraseP fun item => decide (item.addr = lit)) = l₁ ++ l₂ := by
  have hkey : key ∈ c.lruList.map Item.key := by
    rw [← L.keys.mem_iff, ← AList.mem_keys, ← AList.lookup_isSome, h]
    rfl
  obtain ⟨item, hi, rfl⟩ := List.mem_map.mp hkey
  have haddr : item.addr = lit := Option.some_inj.mp ((L.place item hi).symm.trans h)
  obtain ⟨l₁, l₂, hl⟩ := List.append_of_mem hi
  have hnodup := L.addr
  rw [hl, List.map_append, List.map_cons] at hnodup
  have hl₁ : ∀ item' ∈ l₁, ¬decide (item'.addr = lit) = true := by
    intro item' hi' heq
    rw [decide_eq_true_eq] at heq
    exact (List.nodup_append.mp hnodup).2.2 _ (List.mem_map_of_mem hi') _ List.mem_cons_self
      (heq.trans haddr.symm)
  refine ⟨l₁, item, l₂, hl, rfl, ?_, ?_⟩
  · rw [hl, List.find?_append, List.find?_eq_none.mpr hl₁, Option.none_or,
      List.find?_cons_of_pos (by simpa using haddr)]
  · rw [hl, List.eraseP_append_right _ hl₁, List.eraseP_cons_of_pos (by simpa using haddr)]

theorem Linked.view_lookup_none (L : Linked c) (h : c.map.lookup key = none) :
    c.view.lookup (key.tag, key.addr) = none := by
  rw [IndexedReader.IndexedDiffCache.lookup, List.find?_eq_none]
  intro p hp hkey
  obtain ⟨item, hi, rfl⟩ := List.mem_map.mp hp
  have heq : item.key = key := pair_fst_eq_iff.mp (of_decide_eq_true hkey)
  have hplace := L.place item hi
  rw [heq, h] at hplace
  cases hplace

theorem Linked.view_lookup_isSome (L : Linked c) {lit : Nat} (h : c.map.lookup key = some lit) :
    (c.view.lookup (key.tag, key.addr)).isSome := by
  obtain ⟨l₁, item, l₂, hl, hkey, -⟩ := L.lookup h
  rw [IndexedReader.IndexedDiffCache.lookup, List.find?_isSome]
  refine ⟨item.pair, List.mem_map_of_mem (hl ▸ List.mem_append_right _ List.mem_cons_self), ?_⟩
  exact decide_eq_true (pair_fst_eq_iff.mpr hkey)

theorem Linked.find_none (h : c.map.lookup key = none) : c.find key = some (none, c) := by
  rw [IndexedDiffCache.find, h]

theorem Linked.find_some (L : Linked c) {lit : Nat} (h : c.map.lookup key = some lit) :
    ∃ l₁ item l₂ c', c.lruList = l₁ ++ item :: l₂ ∧ item.key = key ∧
      c.find key = some (some item.data, c') ∧ Linked c' ∧
      c'.lruList = ⟨c.next, key, item.data⟩ :: (l₁ ++ l₂) ∧ c'.maxBytes = c.maxBytes ∧
      c'.curBytes = c.curBytes ∧
      c.view.find (key.tag, key.addr) = (some item.data, c'.view) := by
  obtain ⟨l₁, item, l₂, hl, rfl, hfind, herase⟩ := L.lookup h
  have hperm : c.lruList ~ item :: (l₁ ++ l₂) := hl ▸ List.perm_middle
  have hsub : (l₁ ++ l₂).Sublist c.lruList := by
    rw [hl]
    exact (List.sublist_cons_self item l₂).append_left l₁
  have hkeys : c.map.keys.erase item.key ~ (l₁ ++ l₂).map Item.key := by
    have h := (L.keys.trans (hperm.map Item.key)).erase item.key
    rwa [List.map_cons, List.erase_cons_head] at h
  have hbytes : c.curBytes = item.data.length + bytesOf (l₁ ++ l₂) := by
    rw [L.bytes, bytesOf_perm hperm, bytesOf_cons]
  refine ⟨l₁, item, l₂, _, hl, rfl, ?_, L.push hsub hkeys item.data hbytes, rfl, rfl, rfl, ?_⟩
  · rw [IndexedDiffCache.find, h]
    dsimp only
    rw [hfind, herase]
    rfl
  · have hnodup := L.nodup
    rw [hl, List.map_append, List.map_cons] at hnodup
    have hne : ∀ p ∈ l₁.map Item.pair, ¬decide (p.1 = (item.key.tag, item.key.addr)) = true := by
      intro p hp hkey
      obtain ⟨item', hi', rfl⟩ := List.mem_map.mp hp
      exact (List.nodup_append.mp hnodup).2.2 _ (List.mem_map_of_mem hi') _ List.mem_cons_self
        (pair_fst_eq_iff.mp (of_decide_eq_true hkey))
    have hitem : decide (item.pair.1 = (item.key.tag, item.key.addr)) = true := decide_eq_true rfl
    have hhead : ((item.pair :: l₂.map Item.pair).find? fun p =>
        decide (p.1 = (item.key.tag, item.key.addr))) = some item.pair :=
      List.find?_cons_of_pos hitem
    have htail : ((item.pair :: l₂.map Item.pair).eraseP fun p =>
        decide (p.1 = (item.key.tag, item.key.addr))) = l₂.map Item.pair :=
      List.eraseP_cons_of_pos hitem
    rw [IndexedReader.IndexedDiffCache.find, IndexedReader.IndexedDiffCache.lookup]
    simp only [IndexedDiffCache.view]
    rw [hl, List.map_append, List.map_cons, List.find?_append, List.find?_eq_none.mpr hne,
      Option.none_or,
      hhead]
    dsimp only
    rw [List.eraseP_append_right _ hne, htail, List.map_cons, List.map_append]
    rfl

theorem Linked.evictOne (L : Linked c) (hl : c.lruList = l ++ [item]) :
    Linked c.evictOne ∧ c.evictOne.lruList = l ∧ c.evictOne.maxBytes = c.maxBytes := by
  have hev : c.evictOne = { c with
      map := c.map.erase item.key
      curBytes := c.curBytes - item.data.length
      lruList := l } := by
    rw [IndexedDiffCache.evictOne, hl, List.getLast?_concat, List.dropLast_concat]
  have hsub : l.Sublist c.lruList := hl ▸ List.sublist_append_left l [item]
  have hperm : c.lruList ~ item :: l := hl ▸ List.perm_append_comm
  have hnodup : ((item :: l).map Item.key).Nodup := (hperm.map Item.key).nodup_iff.mp L.nodup
  obtain ⟨hnot, -⟩ := List.nodup_cons.mp hnodup
  rw [hev]
  refine ⟨⟨L.addr.sublist (hsub.map _), fun i hi => L.fresh i (hsub.subset hi), ?_, fun i hi => ?_,
    ?_⟩, rfl, rfl⟩
  · rw [AList.keys_erase]
    have h := (L.keys.trans (hperm.map Item.key)).erase item.key
    rwa [List.map_cons, List.erase_cons_head] at h
  · have hne : i.key ≠ item.key := fun heq => hnot (heq ▸ List.mem_map_of_mem hi)
    rw [AList.lookup_erase_ne hne]
    exact L.place i (hsub.subset hi)
  · dsimp only
    rw [L.bytes, bytesOf_perm hperm, bytesOf_cons, Nat.add_sub_cancel_left]

/-- The loop stops within the limit or at the element in front, which it keeps. -/
theorem Linked.evict (L : Linked c) (hl : c.lruList = item :: rest) {fuel : Nat}
    (hf : c.lruList.length ≤ fuel) :
    ∃ c' rest', IndexedDiffCache.evict fuel c = some c' ∧ Linked c' ∧ Bounded c' ∧
      c'.lruList = item :: rest' ∧
      c'.maxBytes = c.maxBytes ∧ c'.view = c.view.evict fuel := by
  induction fuel generalizing c rest with
  | zero =>
      rw [hl] at hf
      exact absurd hf (Nat.not_succ_le_zero _)
  | succ fuel ih =>
      have hview : c.view.evict (fuel + 1) =
          if c.maxBytes < c.curBytes ∧ 1 < c.lruList.length then c.evictOne.view.evict fuel
          else c.view := by
        rw [IndexedReader.IndexedDiffCache.evict, L.view_curBytes, view_evictOne]
        simp [IndexedDiffCache.view]
      rw [IndexedDiffCache.evict, L.length_keys, hview]
      split_ifs with hc
      · rcases List.eq_nil_or_concat rest with rfl | ⟨rest₁, last, rfl⟩
        · rw [hl] at hc
          exact absurd hc.2 (lt_irrefl 1)
        · have hlast : c.lruList = (item :: rest₁) ++ [last] := by
            rw [hl, List.cons_append, List.concat_eq_append]
          obtain ⟨L', hl', hmax⟩ := L.evictOne hlast
          rw [hl] at hf
          obtain ⟨c', rest', he, hlinked, hbound, hfront, hmax', hv⟩ := ih L' hl' (by
            rw [hl', List.length_cons]
            simp only [List.length_cons, List.concat_eq_append, List.length_append, List.length_nil]
              at hf
            omega)
          exact ⟨c', rest', he, hlinked, hbound, hfront, hmax'.trans hmax, hv⟩
      · refine ⟨c, rest, rfl, L, ?_, hl, rfl, rfl⟩
        rcases not_and_or.mp hc with h | h
        · exact .inl (not_lt.mp h)
        · exact .inr (not_lt.mp h)

theorem Linked.add (L : Linked c) (h : c.map.lookup key = none) (data : Bytes) :
    ∃ c' rest, c.add key data = some (.ok c') ∧ Linked c' ∧ Bounded c' ∧
      c'.lruList = ⟨c.next, key, data⟩ :: rest ∧
      c'.maxBytes = c.maxBytes ∧ c.view.add (key.tag, key.addr) data = .ok c'.view := by
  have hkeys : c.map.keys.erase key ~ c.lruList.map Item.key := by
    rw [List.erase_of_not_mem (AList.lookup_eq_none.mp h)]
    exact L.keys
  have hnew := L.push (List.Sublist.refl _) hkeys data (show c.curBytes + data.length =
    _ by rw [L.bytes, Nat.add_comm])
  obtain ⟨c', rest, he, hlinked, hbound, hfront, hmax, hv⟩ :=
    hnew.evict rfl (le_refl (c.lruList.length + 1))
  refine ⟨c', rest, ?_, hlinked, hbound, hfront, hmax, ?_⟩
  · rw [IndexedDiffCache.add, h]
    dsimp only
    rw [he]
    rfl
  · have hlookup : c.view.lookup (key.tag, key.addr) = none := L.view_lookup_none h
    rw [IndexedReader.IndexedDiffCache.add, hlookup, if_neg (by simp), hv]
    simp only [IndexedDiffCache.view, List.length_map, List.map_cons]
    rfl

theorem Linked.step (L : Linked c) (B : Bounded c) (call : Call) :
    ∃ c', c.step call = some c' ∧ Linked c' ∧ Bounded c' ∧ c'.maxBytes = c.maxBytes := by
  cases call with
  | find key =>
      cases h : c.map.lookup key with
      | none => exact ⟨c, by rw [IndexedDiffCache.step, find_none h]; rfl, L, B, rfl⟩
      | some lit =>
          obtain ⟨l₁, item, l₂, c', hl, -, hfind, L', hl', hmax, hcur, -⟩ := L.find_some h
          refine ⟨c', by rw [IndexedDiffCache.step, hfind]; rfl, L', ?_, hmax⟩
          have hlen : c'.lruList.length = c.lruList.length := by
            rw [hl', hl]
            simp [Nat.add_assoc]
          rwa [Bounded, hcur, hmax, hlen]
  | add key data =>
      cases h : c.map.lookup key with
      | some lit => exact ⟨c, by rw [IndexedDiffCache.step, IndexedDiffCache.add, h]; rfl, L, B, rfl⟩
      | none =>
          obtain ⟨c', rest, hadd, L', B', -, hmax, -⟩ := L.add h data
          exact ⟨c', by rw [IndexedDiffCache.step, hadd]; rfl, L', B', hmax⟩

theorem Linked.view_step (L : Linked c) {call : Call} {c' : IndexedDiffCache}
    (h : c.step call = some c') :
    c'.view = viewStep c.view call := by
  cases call with
  | find key =>
      cases hkey : c.map.lookup key with
      | none =>
          rw [IndexedDiffCache.step, find_none hkey] at h
          cases h
          rw [viewStep, IndexedReader.IndexedDiffCache.find, L.view_lookup_none hkey]
      | some lit =>
          obtain ⟨l₁, item, l₂, c₁, -, -, hfind, -, -, -, -, hview⟩ := L.find_some hkey
          rw [IndexedDiffCache.step, hfind] at h
          cases h
          rw [viewStep, hview]
  | add key data =>
      cases hkey : c.map.lookup key with
      | none =>
          obtain ⟨c₁, rest, hadd, -, -, -, -, hview⟩ := L.add hkey data
          rw [IndexedDiffCache.step, hadd] at h
          cases h
          rw [viewStep, hview]
          rfl
      | some lit =>
          rw [IndexedDiffCache.step, IndexedDiffCache.add, hkey] at h
          cases h
          rw [viewStep, IndexedReader.IndexedDiffCache.add, if_pos (L.view_lookup_isSome hkey)]
          rfl

theorem Linked.run (L : Linked c) (B : Bounded c) (calls : List Call) :
    ∃ c', c.run calls = some c' ∧ Linked c' ∧ Bounded c' ∧ c'.maxBytes = c.maxBytes := by
  induction calls generalizing c with
  | nil => exact ⟨c, rfl, L, B, rfl⟩
  | cons call calls ih =>
      obtain ⟨c₁, h₁, L₁, B₁, hmax₁⟩ := L.step B call
      obtain ⟨c', h', L', B', hmax'⟩ := ih L₁ B₁
      refine ⟨c', ?_, L', B', hmax'.trans hmax₁⟩
      rw [IndexedDiffCache.run, List.foldlM_cons, h₁, Option.bind_eq_bind, Option.bind_some]
      exact h'

/-- In every run the cache of the readers is the view of this one. -/
theorem view_run (maxBytes : Nat) {calls : List Call} {c : IndexedDiffCache}
    (h : (IndexedDiffCache.init maxBytes).run calls = some c) :
    c.view = calls.foldl viewStep ⟨maxBytes, []⟩ := by
  induction calls using List.reverseRecOn generalizing c with
  | nil =>
      cases h
      rfl
  | append_singleton calls call ih =>
      rw [IndexedDiffCache.run, List.foldlM_append] at h
      obtain ⟨c₁, h₁, hcall⟩ := Option.bind_eq_some_iff.mp h
      obtain ⟨c₂, h₂, L₂, -⟩ := (linked_init maxBytes).run (.inl (Nat.zero_le _)) calls
      obtain rfl : c₂ = c₁ := Option.some_inj.mp (h₂.symm.trans h₁)
      rw [List.foldlM_cons] at hcall
      obtain ⟨c₃, h₃, hnil⟩ := Option.bind_eq_some_iff.mp hcall
      cases hnil
      rw [List.foldl_append, ← ih h₁]
      exact L₂.view_step h₃

/-- In every run the list and the map hold the same keys once each, the counter is the size
of the cached data and within the limit unless one entry is alone, and data that was just
added is found. -/
theorem cache_keeps_representation (maxBytes : Nat) (calls : List Call) :
    ∃ c, (IndexedDiffCache.init maxBytes).run calls = some c ∧
      (c.lruList.map Item.key).Nodup ∧ c.map.keys ~ c.lruList.map Item.key ∧
      (∀ item ∈ c.lruList, ∃ lit, c.map.lookup item.key = some lit ∧
        (c.lruList.find? fun item => decide (item.addr = lit)) = some item) ∧
      c.curBytes = (c.lruList.map fun item => item.data.length).sum ∧
      (c.curBytes ≤ maxBytes ∨ c.lruList.length ≤ 1) ∧
      (∀ key data, (∃ msg, c.add key data = some (.error msg)) ∧ key ∈ c.map.keys ∨
        key ∉ c.map.keys ∧ ∃ c' c'', c.add key data = some (.ok c') ∧
        c'.find key = some (some data, c'')) := by
  obtain ⟨c, hrun, L, B, hmax⟩ := (linked_init maxBytes).run (.inl (Nat.zero_le _)) calls
  refine ⟨c, hrun, L.nodup, L.keys, fun item hi => ⟨_, L.place item hi, ?_⟩, L.bytes, ?_,
    fun key data => ?_⟩
  · obtain ⟨l₁, item', l₂, hl, hkey, hfind, -⟩ := L.lookup (L.place item hi)
    have heq : item' = item :=
      List.inj_on_of_nodup_map L.nodup (hl ▸ List.mem_append_right _ List.mem_cons_self) hi hkey
    rw [hfind, heq]
  · rwa [Bounded, show c.maxBytes = maxBytes from hmax] at B
  · cases h : c.map.lookup key with
    | some lit =>
        have hmem : key ∈ c.map.keys := by
          rw [← AList.mem_keys, ← AList.lookup_isSome, h]
          rfl
        exact .inl ⟨⟨_, by rw [IndexedDiffCache.add, h]⟩, hmem⟩
    | none =>
        obtain ⟨c', rest, hadd, L', -, hfront, -, -⟩ := L.add h data
        have hplace := L'.place ⟨c.next, key, data⟩ (hfront ▸ List.mem_cons_self)
        obtain ⟨l₁, item, l₂, c'', hl, hkey, hfind, -⟩ := L'.find_some hplace
        have heq : item = ⟨c.next, key, data⟩ := List.inj_on_of_nodup_map L'.nodup
          (hl ▸ List.mem_append_right _ List.mem_cons_self) (hfront ▸ List.mem_cons_self) hkey
        exact .inr ⟨AList.lookup_eq_none.mp h, c', c'', hadd, by rw [hfind, heq]⟩

end WalbTools.LruCache
