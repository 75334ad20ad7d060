import Draugr.Cache.Books

/-!
# The cache as a list in the order of use

`LruStep` is what the cache is for: a list of entries, the most recently used first, with what each
call may return and make of it. Over an index that is an exact multimap from hashes to slots,
`contents` of the cache follows that list through every sequence of calls. The index may refuse a
slot; such a put fails after the eviction that it has made.

The relation between the two sides is `Rep`: the books hold for a list of slots, and the index holds
the hash of each of these slots with the slot, and nothing else.
-/

namespace Draugr.Cache
open Draugr.Lib

/-- An entry of the list: where it is, its hash and its bytes. -/
structure CacheItem where
  slot : ℕ
  hash : UInt64
  data : Bytes
  deriving DecidableEq, Repr

/-- An entry that a key designates. -/
def CacheItem.Matches (cfg : CacheConfig) (key : Bytes) (x : CacheItem) : Prop :=
  x.hash = cfg.hashFn key ∧ keyMatches cfg key x.data = true

/-- The pointer to an entry. -/
def CacheItem.pointer (cfg : CacheConfig) (x : CacheItem) : ℤ := x.slot * cfg.entrySize

/-- A pointer into the bytes of an entry. -/
def CacheItem.Holds (cfg : CacheConfig) (entry : ℤ) (x : CacheItem) : Prop :=
  x.pointer cfg ≤ entry ∧ entry < x.pointer cfg + cfg.entrySize

/-- The list without its last entry if it is full. -/
def makeRoom (cfg : CacheConfig) (l : List CacheItem) : List CacheItem :=
  if l.length = cfg.capacity then l.dropLast else l

/-- What a put may return and make of the list; `refused` says that the index refuses the slot. -/
def PutStep (cfg : CacheConfig) (refused : Bool) (e : Bytes) (l : List CacheItem) (p : Option ℤ)
    (l' : List CacheItem) : Prop :=
  if e.length ≠ cfg.entrySize then p = none ∧ l' = l
  else if refused = true then p = none ∧ l' = makeRoom cfg l
  else ∃ s < cfg.capacity, (∀ x ∈ makeRoom cfg l, x.slot ≠ s) ∧
    p = some (s * cfg.entrySize : ℤ) ∧ l' = ⟨s, cfg.hashFn e, e⟩ :: makeRoom cfg l

/-- What a call may return and make of the list. -/
def LruStep (cfg : CacheConfig) (refused : Bool) (l : List CacheItem) :
    CacheOp → CacheReply → List CacheItem → Prop
  | .put e, .entry p, l' => PutStep cfg refused e l p l'
  | .get key, .entry p, l' =>
    (p = none ∧ (∀ x ∈ l, ¬ x.Matches cfg key) ∧ l' = l) ∨
      ∃ x ∈ l, x.Matches cfg key ∧ p = some (x.pointer cfg) ∧ l' = x :: l.erase x
  | .find hash scanFn, .entry p, l' =>
    l' = l ∧ ((p = none ∧ ∀ x ∈ l, x.hash = hash → scanFn x.data = true) ∨
      ∃ x ∈ l, x.hash = hash ∧ scanFn x.data = false ∧ p = some (x.pointer cfg))
  | .promote entry, .void, l' =>
    ((∀ x ∈ l, ¬ x.Holds cfg entry) ∧ l' = l) ∨ ∃ x ∈ l, x.Holds cfg entry ∧ l' = x :: l.erase x
  | .remove key, .flag ok, l' =>
    (ok = false ∧ (∀ x ∈ l, ¬ x.Matches cfg key) ∧ l' = l) ∨
      ok = true ∧ ∃ x ∈ l, x.Matches cfg key ∧ l' = l.erase x
  | .evict, .flag ok, l' => ok = !l.isEmpty ∧ l' = l.dropLast
  | .clear, .void, l' => l' = []
  | _, _, _ => False

/-- A call of a run: the call, whether the index refused its slot, what it returned and the list
after it. -/
structure LruEvent where
  op : CacheOp
  refused : Bool
  reply : CacheReply
  after : List CacheItem

/-- A run of the list: every call does what `LruStep` says. -/
def LruRun (cfg : CacheConfig) : List CacheItem → List LruEvent → Prop
  | _, [] => True
  | l, ev :: evs => LruStep cfg ev.refused l ev.op ev.reply ev.after ∧ LruRun cfg ev.after evs

/-- An index that is an exact multimap, whose contents are `pairs`. Its inserts may fail. -/
structure Exact {β : Type} (ix : Index β) (pairs : β → Multiset (UInt64 × ℕ)) : Prop where
  insert : ∀ b h v, pairs (ix.insert b h v).2 = if (ix.insert b h v).1 then (h, v) ::ₘ pairs b
    else pairs b
  findAll : ∀ b h, ((ix.findAll b h).1 : Multiset ℕ) = ((pairs b).filter (·.1 = h)).map (·.2)
  findAll_keeps : ∀ b h, pairs (ix.findAll b h).2 = pairs b
  removeVal : ∀ b h v, ((ix.removeVal b h v).1 = true ↔ (h, v) ∈ pairs b) ∧
    pairs (ix.removeVal b h v).2 = (pairs b).erase (h, v)
  clear : ∀ b, pairs (ix.clear b) = 0

section Contents

variable {β : Type} (ix : Index β)

/-- The entry in a slot. -/
def item (c : HtCache β) (s : ℕ) : CacheItem := ⟨s, c.hashes s, c.entries s⟩

/-- The entries of the cache, the most recently used first: those met from the head on. -/
def contents (c : HtCache β) : List CacheItem :=
  (walk (fd c) NONE (c.capacity + 1) NONE).map (item c)

/-- Whether the index refuses the slot on top of the free stack. -/
def refusesSlot (c : HtCache β) (e : Bytes) : Bool :=
  !(ix.insert c.bare (c.hashFn e) (c.freeStack (c.freeTop - 1))).1

/-- Whether the index refuses the slot that a put takes, after its eviction if the cache is full. -/
def refuses (c : HtCache β) : CacheOp → Bool
  | .put e => refusesSlot ix (if c.freeTop = 0 then (htCacheEvict ix c).2 else c) e
  | _ => false

/-- The run of the cache. -/
def events (c : HtCache β) : List CacheOp → List LruEvent
  | [] => []
  | op :: ops =>
    ⟨op, refuses ix c op, (op.run ix c).1, contents (op.run ix c).2⟩ :: events (op.run ix c).2 ops

end Contents

variable {β : Type} {ix : Index β} {pairs : β → Multiset (UInt64 × ℕ)} {c c' : HtCache β}
  {l l' : List ℕ} {s : ℕ}

/-- The index holds the slots of the list with their hashes. -/
def Indexed (pairs : β → Multiset (UInt64 × ℕ)) (c : HtCache β) (l : List ℕ) : Prop :=
  pairs c.bare = (l.map fun s => (c.hashes s, s) : Multiset (UInt64 × ℕ))

/-- The cache stands for the entries in the slots `l`. -/
structure Rep (pairs : β → Multiset (UInt64 × ℕ)) (c : HtCache β) (l : List ℕ) : Prop where
  books : Books c l
  indexed : Indexed pairs c l

/-- Different slots give different items. -/
lemma item_injective (c : HtCache β) : Function.Injective (item c) :=
  fun _ _ h => congrArg CacheItem.slot h

/-- The contents are the entries in the slots of the list. -/
lemma Books.contents_eq (h : Books c l) : contents c = l.map (item c) := by
  have hlen := h.total
  rw [h.size] at hlen
  rw [contents, h.ring.walk_eq (by omega)]

/-- The entries are those of another state with the same hashes and bytes. -/
lemma item_congr (hh : c'.hashes = c.hashes) (he : c'.entries = c.entries) : item c' = item c := by
  funext s
  rw [item, item, hh, he]

/-! ## The parts of the calls -/

/-- The index changes, but not its contents. -/
lemma Rep.setBare (h : Rep pairs c l) {b : β} (hb : pairs b = pairs c.bare) :
    Rep pairs { c with bare := b } l :=
  ⟨h.books.setBare b, hb.trans h.indexed⟩

/-- Relinking keeps the entries. -/
lemma Relinked.data (h : Relinked c c') :
    c'.bare = c.bare ∧ c'.hashes = c.hashes ∧ c'.entries = c.entries ∧
      c'.toCacheConfig = c.toCacheConfig := by
  obtain ⟨p, n, hd, t, rfl⟩ := h
  exact ⟨rfl, rfl, rfl, rfl⟩

/-- `lru_promote` moves the entry to the front. -/
lemma Rep.promote (h : Rep pairs c l) (hs : s ∈ l) : Rep pairs (lruPromote c s) (s :: l.erase s) ∧
    (s :: l.erase s).map (item (lruPromote c s)) = item c s :: (l.map (item c)).erase
    (item c s) := by
  obtain ⟨hb, hh, he, -⟩ := (lruPromote_relinked c s).data
  refine ⟨⟨h.books.promote hs, ?_⟩, ?_⟩
  · rw [Indexed, hb, hh, h.indexed]
    exact Multiset.coe_eq_coe.mpr ((List.perm_cons_erase hs).map _)
  · rw [item_congr hh he, List.map_cons, List.map_erase (item_injective c)]

/-- A slot that the index has given up is released. -/
lemma Rep.release (h : Rep pairs c l) (hs : s ∈ l) {b : β}
    (hb : pairs b = (pairs c.bare).erase (c.hashes s, s)) :
    Rep pairs (releaseSlot { c with bare := b } s) (l.erase s) ∧
      (l.erase s).map (item (releaseSlot { c with bare := b } s)) =
      (l.map (item c)).erase (item c s) := by
  obtain ⟨hb', hh, he, -⟩ := (lruRemove_relinked { c with bare := b } s).data
  have hh' : (releaseSlot { c with bare := b } s).hashes = c.hashes := hh
  refine ⟨⟨(h.books.setBare b).release hs, ?_⟩, ?_⟩
  · have hperm : (l.map fun s => (c.hashes s, s) : Multiset (UInt64 × ℕ)) =
        (c.hashes s, s) ::ₘ ((l.erase s).map fun s => (c.hashes s, s) : Multiset (UInt64 × ℕ)) :=
      Multiset.coe_eq_coe.mpr ((List.perm_cons_erase hs).map _)
    rw [Indexed, hh', show (releaseSlot { c with bare := b } s).bare = b from hb', hb,
      h.indexed, hperm, Multiset.erase_cons_head]
  · rw [item_congr hh' he, List.map_erase (item_injective c)]

/-- The slots that the index reports are those of the list with the hash. -/
lemma Rep.mem_findAll (h : Rep pairs c l) (hix : Exact ix pairs) (hash : UInt64) :
    s ∈ (ix.findAll c.bare hash).1 ↔ s ∈ l ∧ c.hashes s = hash := by
  rw [← Multiset.mem_coe, hix.findAll, h.indexed]
  simp only [Multiset.mem_map, Multiset.mem_filter, Multiset.mem_coe, List.mem_map]
  constructor
  · rintro ⟨_, ⟨⟨x, hx, rfl⟩, rfl⟩, rfl⟩
    exact ⟨hx, rfl⟩
  · rintro ⟨hs, rfl⟩
    exact ⟨_, ⟨⟨s, hs, rfl⟩, rfl⟩, rfl⟩

/-- A miss says that no entry with the hash passes the test. -/
lemma Rep.miss (h : Rep pairs c l) (hix : Exact ix pairs) {hash : UInt64} {p : Bytes → Bool}
    (hm : (ix.findAll c.bare hash).1.find? (hits c p) = none) :
    ∀ x ∈ l.map (item c), x.hash = hash → p x.data = false := by
  intro x hx hxh
  obtain ⟨s, hs, rfl⟩ := List.mem_map.mp hx
  have hlt := h.books.lt hs
  have := List.find?_eq_none.mp hm s ((h.mem_findAll hix hash).mpr ⟨hs, hxh⟩)
  rw [hits_iff, not_and, not_and, Bool.not_eq_true] at this
  exact this hlt ((h.books.live s hlt).mpr hs)

/-- A hit is an entry with the hash that passes the test. -/
lemma Rep.hit (h : Rep pairs c l) (hix : Exact ix pairs) {hash : UInt64} {p : Bytes → Bool}
    (hm : (ix.findAll c.bare hash).1.find? (hits c p) = some s) :
    s ∈ l ∧ c.hashes s = hash ∧ p (c.entries s) = true := by
  obtain ⟨hs, hh⟩ := (h.mem_findAll hix hash).mp (List.mem_of_find?_eq_some hm)
  exact ⟨hs, hh, (h.books.mem_of_hits (List.find?_some hm)).2⟩

/-- The index gives up the slots of the list. -/
lemma Rep.gives_up (h : Rep pairs c l) (hix : Exact ix pairs) (hs : s ∈ l) {b : β}
    (hb : pairs b = pairs c.bare) :
    (ix.removeVal b (c.hashes s) s).1 = true ∧
      pairs (ix.removeVal b (c.hashes s) s).2 = (pairs c.bare).erase (c.hashes s, s) := by
  obtain ⟨hok, hp⟩ := hix.removeVal b (c.hashes s) s
  rw [hb] at hok hp
  refine ⟨hok.mpr ?_, hp⟩
  rw [h.indexed]
  exact Multiset.mem_coe.mpr (List.mem_map_of_mem hs)

/-- `ht_cache_evict` drops the least recently used entry. -/
lemma Rep.evict (h : Rep pairs c l) (hix : Exact ix pairs) :
    (htCacheEvict ix c).1 = !l.isEmpty ∧ Rep pairs (htCacheEvict ix c).2 l.dropLast ∧
      l.dropLast.map (item (htCacheEvict ix c).2) = (l.map (item c)).dropLast := by
  obtain ⟨rfl, he⟩ | ⟨l₀, s, b, rfl, hc⟩ := (@Books.evict_cases _ ix) h.books
  · rw [he]
    exact ⟨rfl, h, rfl⟩
  · have hs : s ∈ l₀ ++ [s] := by simp
    obtain ⟨hok, hp⟩ := h.gives_up hix hs rfl
    have hsl : s ∉ l₀ := fun hsl => (List.nodup_append.mp h.books.nodup).2.2 s hsl s (by simp) rfl
    have herase : (l₀ ++ [s]).erase s = l₀ := by
      rw [List.erase_append_right _ hsl]
      simp
    obtain ⟨hr, -⟩ | ⟨hr, he⟩ := hc
    · rw [hr] at hok
      cases hok
    · rw [hr] at hp
      obtain ⟨hrep, hitems⟩ := h.release hs hp
      rw [herase] at hrep hitems
      rw [he, List.dropLast_concat]
      refine ⟨by simp, hrep, hitems.trans ?_⟩
      rw [← List.map_erase (item_injective c), herase, List.map_append, List.map_singleton,
        List.dropLast_concat]

/-- A refused put keeps the list. -/
lemma Rep.putSlot_refused {e : Bytes} (h : Rep pairs c l) (hix : Exact ix pairs)
    (hfree : c.freeTop ≠ 0)
    (hi : (ix.insert c.bare (c.hashFn e) (c.freeStack (c.freeTop - 1))).1 = false) :
    (putSlot ix e c).1 = none ∧ Rep pairs (putSlot ix e c).2 l ∧
      l.map (item (putSlot ix e c).2) = l.map (item c) := by
  obtain ⟨-, -, hnl⟩ := h.books.top hfree
  have hp := hix.insert c.bare (c.hashFn e) (c.freeStack (c.freeTop - 1))
  rcases hr : ix.insert c.bare (c.hashFn e) (c.freeStack (c.freeTop - 1)) with ⟨ok, b⟩
  rw [hr] at hi hp
  cases hi
  have hbooks := h.books.putSlot_refused hfree hr
  rw [putSlot_of_refused hr] at hbooks ⊢
  have hne : ∀ x ∈ l, x ≠ c.freeStack (c.freeTop - 1) := fun x hx h0 => hnl (h0 ▸ hx)
  refine ⟨rfl, ⟨hbooks, ?_⟩, List.map_congr_left fun x hx => ?_⟩
  · refine (hp.trans h.indexed).trans (congrArg _ (List.map_congr_left fun x hx => ?_))
    simp [Function.update_of_ne (hne x hx)]
  · simp [item, Function.update_of_ne (hne x hx)]

/-- An accepted put adds its entry at the front. -/
lemma Rep.putSlot_accepted {e : Bytes} (h : Rep pairs c l) (hix : Exact ix pairs)
    (hfree : c.freeTop ≠ 0)
    (hi : (ix.insert c.bare (c.hashFn e) (c.freeStack (c.freeTop - 1))).1 = true) :
    ∃ s < c.capacity, s ∉ l ∧ (putSlot ix e c).1 = some (entryAt c s) ∧ Rep pairs (putSlot ix e c).2
      (s :: l) ∧
      (s :: l).map (item (putSlot ix e c).2) = ⟨s, c.hashFn e, e⟩ :: l.map (item c) := by
  obtain ⟨-, hlt, hnl⟩ := h.books.top hfree
  have hp := hix.insert c.bare (c.hashFn e) (c.freeStack (c.freeTop - 1))
  rcases hr : ix.insert c.bare (c.hashFn e) (c.freeStack (c.freeTop - 1)) with ⟨ok, b⟩
  rw [hr] at hi hp
  cases hi
  have hbooks := h.books.putSlot_accepted hfree hr
  obtain ⟨c₁, hrel, -, he⟩ := putSlot_of_accepted hr
  obtain ⟨hb₁, hh₁, he₁, -⟩ := hrel.data
  rw [he] at hbooks ⊢
  generalize hs : c.freeStack (c.freeTop - 1) = s at *
  replace hh₁ : c₁.hashes = Function.update c.hashes s (c.hashFn e) := hh₁
  replace he₁ : c₁.entries = Function.update c.entries s e := he₁
  have hne : ∀ x ∈ l, x ≠ s := fun x hx h0 => hnl (h0 ▸ hx)
  refine ⟨s, hlt, hnl, rfl, ⟨hbooks, ?_⟩, ?_⟩
  · rw [Indexed, hb₁, hh₁, hp, if_pos rfl, h.indexed, List.map_cons, ← Multiset.cons_coe,
      Function.update_self]
    refine congrArg (_ ::ₘ ·) (congrArg _ (List.map_congr_left fun x hx => ?_))
    simp [Function.update_of_ne (hne x hx)]
  · rw [List.map_cons]
    refine congrArg₂ _ ?_ (List.map_congr_left fun x hx => ?_)
    · simp [item, hh₁, he₁]
    · simp [item, hh₁, he₁, Function.update_of_ne (hne x hx)]

/-! ## The calls -/

/-- A pointer lies in the entry of its slot. -/
lemma Rep.holds_iff (h : Rep pairs c l) (entry : ℤ) (hs : s ∈ l) :
    (item c s).Holds c.toCacheConfig entry ↔ entryIndex c entry = s := by
  have hlt := h.books.lt hs
  have hsmall := h.books.small
  have hmul : (s + 1) * c.entrySize ≤ c.capacity * c.entrySize := Nat.mul_le_mul_right _ hlt
  rw [Nat.succ_mul] at hmul
  unfold CacheItem.Holds CacheItem.pointer entryIndex item
  simp only [← Int.natCast_mul]
  constructor
  · rintro ⟨h1, h2⟩
    obtain ⟨n, rfl⟩ := Int.eq_ofNat_of_zero_le (show (0 : ℤ) ≤ entry by omega)
    have hdiv : n / c.entrySize = s := by
      refine Nat.div_eq_of_lt_le ?_ ?_
      · omega
      · rw [Nat.succ_mul]
        omega
    rw [if_neg (by omega), Int.toNat_natCast, hdiv, if_neg (by omega)]
  · intro he
    split_ifs at he with h1 h2
    · omega
    · omega
    · obtain ⟨n, rfl⟩ := Int.eq_ofNat_of_zero_le (show (0 : ℤ) ≤ entry by omega)
      rw [Int.toNat_natCast] at he
      have hle := Nat.div_mul_le_self n c.entrySize
      have hgt := Nat.lt_div_mul_add h.books.wide (a := n)
      rw [he] at hle hgt
      omega

/-- What `ht_cache_put` from the pop on may return and make of the list. -/
lemma Rep.putSlot (h : Rep pairs c l) (hix : Exact ix pairs) {e : Bytes} (hfree : c.freeTop ≠ 0) :
    ∃ l', Rep pairs (putSlot ix e c).2 l' ∧
      if refusesSlot ix c e = true then
        (putSlot ix e c).1 = none ∧ l'.map (item (putSlot ix e c).2) = l.map (item c)
      else ∃ s < c.capacity,
        (∀ x ∈ l.map (item c), x.slot ≠ s) ∧ (putSlot ix e c).1 = some (entryAt c s) ∧
        l'.map (item (putSlot ix e c).2) = ⟨s, c.hashFn e, e⟩ :: l.map (item c) := by
  unfold refusesSlot
  split_ifs with hi
  · obtain ⟨hp, hr, hl⟩ := h.putSlot_refused hix hfree (by simpa using hi)
    exact ⟨l, hr, hp, hl⟩
  · obtain ⟨s, hlt, hsl, hp, hr, hl⟩ := h.putSlot_accepted hix hfree (by simpa using hi)
    refine ⟨s :: l, hr, s, hlt, fun x hx hxs => ?_, hp, hl⟩
    obtain ⟨y, hy, rfl⟩ := List.mem_map.mp hx
    exact hsl (hxs ▸ hy)

/-- An eviction keeps the configuration. -/
lemma evict_config (c : HtCache β) : (htCacheEvict ix c).2.toCacheConfig = c.toCacheConfig := by
  unfold htCacheEvict
  split_ifs
  · rfl
  · rfl
  · split
    · rfl
    · exact (lruRemove_relinked _ _).data.2.2.2

/-- `ht_cache_put` does what the list does. -/
lemma Rep.put (h : Rep pairs c l) (hix : Exact ix pairs) (e : Bytes) :
    ∃ l', Rep pairs (htCachePut ix e c).2 l' ∧
      PutStep c.toCacheConfig (refuses ix c (.put e)) e (l.map (item c)) (htCachePut ix e c).1
        (l'.map (item (htCachePut ix e c).2)) := by
  have hfull := h.books.full_iff
  have htotal := h.books.total
  have hroom : makeRoom c.toCacheConfig (l.map (item c)) =
      if c.freeTop = 0 then (l.map (item c)).dropLast else l.map (item c) := by
    simp only [makeRoom, List.length_map, hfull]
  unfold htCachePut PutStep refuses
  rw [hroom]
  by_cases h1 : e.length ≠ c.entrySize
  · simp only [if_pos h1]
    exact ⟨l, h, trivial, rfl⟩
  · simp only [if_neg h1]
    by_cases h2 : c.freeTop = 0
    · simp only [if_pos h2]
      obtain ⟨hok, hrep, hitems⟩ := h.evict hix
      have hcfg := (@evict_config _ ix) c
      rcases he : htCacheEvict ix c with ⟨ok, c₁⟩
      rw [he] at hok hrep hitems hcfg
      have hne : l.isEmpty = false := by
        have hpos := h.books.room
        cases l with
        | nil => exact absurd (hfull.mp h2) (Nat.ne_of_lt hpos)
        | cons => rfl
      rw [hne] at hok
      subst hok
      obtain ⟨l', hrep', hstep⟩ := hrep.putSlot hix (e := e) (freeTop_of_evict he)
      refine ⟨l', hrep', ?_⟩
      rw [hitems] at hstep
      have h3 : c₁.capacity = c.capacity := congrArg CacheConfig.capacity hcfg
      have h4 : c₁.entrySize = c.entrySize := congrArg CacheConfig.entrySize hcfg
      have h5 : c₁.hashFn = c.hashFn := congrArg CacheConfig.hashFn hcfg
      simp only [entryAt, h3, h4, h5] at hstep
      exact hstep
    · simp only [if_neg h2]
      exact h.putSlot hix h2

/-- `ht_cache_get` does what the list does. -/
lemma Rep.get (h : Rep pairs c l) (hix : Exact ix pairs) (refused : Bool) (key : Bytes) :
    ∃ l', Rep pairs (htCacheGet ix key c).2 l' ∧
      LruStep c.toCacheConfig refused (l.map (item c)) (.get key) (.entry (htCacheGet ix key c).1)
        (l'.map (item (htCacheGet ix key c).2)) := by
  have hbare := h.setBare (hix.findAll_keeps c.bare (c.hashFn key))
  obtain ⟨hm, he⟩ | ⟨s, hs, hm, he⟩ := (@Books.get_cases _ ix) h.books key rfl
  · rw [he]
    refine ⟨l, hbare, .inl ⟨rfl, fun x hx hmx => ?_, rfl⟩⟩
    have := h.miss hix hm x hx hmx.1
    rw [hmx.2] at this
    cases this
  · rw [he]
    obtain ⟨-, hhash, hp⟩ := h.hit hix hm
    obtain ⟨hrep, hitems⟩ := hbare.promote hs
    exact ⟨_, hrep, .inr ⟨item c s, List.mem_map_of_mem hs, ⟨hhash, hp⟩, rfl, hitems⟩⟩

/-- `ht_cache_find` does what the list does. -/
lemma Rep.find (h : Rep pairs c l) (hix : Exact ix pairs) (refused : Bool) (hash : UInt64)
    (scanFn : Bytes → Bool) :
    ∃ l', Rep pairs (htCacheFind ix hash scanFn c).2 l' ∧
      LruStep c.toCacheConfig refused (l.map (item c)) (.find hash scanFn)
        (.entry (htCacheFind ix hash scanFn c).1)
          (l'.map (item (htCacheFind ix hash scanFn c).2)) := by
  rw [htCacheFind_eq hash scanFn rfl]
  refine ⟨l, h.setBare (hix.findAll_keeps c.bare hash), rfl, ?_⟩
  rcases hm : (ix.findAll c.bare hash).1.find? (hits c fun e => !scanFn e) with _ | s
  · exact .inl ⟨rfl, fun x hx hxh => by simpa using h.miss hix hm x hx hxh⟩
  · obtain ⟨hs, hhash, hp⟩ := h.hit hix hm
    exact .inr ⟨item c s, List.mem_map_of_mem hs, hhash, by simpa [item] using hp, rfl⟩

/-- `ht_cache_promote` does what the list does. -/
lemma Rep.promoteCall (h : Rep pairs c l) (refused : Bool) (entry : ℤ) :
    ∃ l', Rep pairs (htCachePromote entry c) l' ∧
      LruStep c.toCacheConfig refused (l.map (item c)) (.promote entry) .void
        (l'.map (item (htCachePromote entry c))) := by
  obtain ⟨hs, he⟩ | ⟨hs, he⟩ := h.books.promote_cases entry
  · rw [he]
    refine ⟨l, h, .inl ⟨fun x hx hxe => ?_, rfl⟩⟩
    obtain ⟨y, hy, rfl⟩ := List.mem_map.mp hx
    exact hs ((h.holds_iff entry hy).mp hxe ▸ hy)
  · rw [he]
    obtain ⟨hrep, hitems⟩ := h.promote hs
    exact ⟨_, hrep, .inr ⟨_, List.mem_map_of_mem hs, (h.holds_iff entry hs).mpr rfl, hitems⟩⟩

/-- `ht_cache_remove` does what the list does. -/
lemma Rep.remove (h : Rep pairs c l) (hix : Exact ix pairs) (refused : Bool) (key : Bytes) :
    ∃ l', Rep pairs (htCacheRemove ix key c).2 l' ∧
      LruStep c.toCacheConfig refused (l.map (item c)) (.remove key)
      (.flag (htCacheRemove ix key c).1)
        (l'.map (item (htCacheRemove ix key c).2)) := by
  have hkeep := hix.findAll_keeps c.bare (c.hashFn key)
  obtain ⟨hm, he⟩ | ⟨s, hs, hm, b, hc⟩ := (@Books.remove_cases _ ix) h.books key rfl
  · rw [he]
    refine ⟨l, h.setBare hkeep, .inl ⟨rfl, fun x hx hmx => ?_, rfl⟩⟩
    have := h.miss hix hm x hx hmx.1
    rw [hmx.2] at this
    cases this
  · obtain ⟨-, hhash, hp⟩ := h.hit hix hm
    obtain ⟨hok, hb⟩ := h.gives_up hix hs hkeep
    rw [hhash] at hok hb
    obtain ⟨hr, -⟩ | ⟨hr, he⟩ := hc
    · rw [hr] at hok
      cases hok
    · rw [hr, ← hhash] at hb
      obtain ⟨hrep, hitems⟩ := h.release hs hb
      rw [he]
      exact ⟨_, hrep, .inr ⟨rfl, item c s, List.mem_map_of_mem hs, ⟨hhash, hp⟩, hitems⟩⟩

/-- No call changes the configuration. -/
lemma run_config (op : CacheOp) (h : Books c l) :
    (op.run ix c).2.toCacheConfig = c.toCacheConfig := by
  have hput : ∀ (c : HtCache β) (e : Bytes),
      (putSlot ix e c).2.toCacheConfig = c.toCacheConfig := by
    intro c e
    rcases hi : ix.insert c.bare (c.hashFn e) (c.freeStack (c.freeTop - 1)) with ⟨ok, b⟩
    cases ok with
    | false => rw [putSlot_of_refused hi]
    | true =>
      obtain ⟨c₁, hrel, -, he⟩ := putSlot_of_accepted hi
      rw [he]
      exact hrel.data.2.2.2
  cases op with
  | put e =>
    simp only [CacheOp.run, htCachePut]
    split_ifs
    · rfl
    · have := (@evict_config _ ix) c
      rcases he : htCacheEvict ix c with ⟨ok, c₁⟩
      rw [he] at this
      cases ok with
      | false => exact this
      | true => exact (hput c₁ e).trans this
    · exact hput c e
  | get key =>
    obtain ⟨-, he⟩ | ⟨s, hs, -, he⟩ := (@Books.get_cases _ ix) h key rfl
    · rw [CacheOp.run, he]
    · rw [CacheOp.run, he]
      exact (lruPromote_relinked _ s).data.2.2.2
  | find hash scanFn => rw [CacheOp.run, htCacheFind_eq hash scanFn rfl]
  | promote entry =>
    obtain ⟨-, he⟩ | ⟨-, he⟩ := h.promote_cases entry
    · rw [CacheOp.run, he]
    · rw [CacheOp.run, he]
      exact (lruPromote_relinked _ _).data.2.2.2
  | remove key =>
    obtain ⟨-, he⟩ | ⟨s, hs, -, b, ⟨-, he⟩ | ⟨-, he⟩⟩ := (@Books.remove_cases _ ix) h key rfl
    · rw [CacheOp.run, he]
    · rw [CacheOp.run, he]
    · rw [CacheOp.run, he]
      exact (lruRemove_relinked _ s).data.2.2.2
  | evict => exact evict_config c
  | clear => rfl

/-- Every call does what the list does. -/
lemma Rep.step (h : Rep pairs c l) (hix : Exact ix pairs) (op : CacheOp) :
    ∃ l', Rep pairs (op.run ix c).2 l' ∧
      LruStep c.toCacheConfig (refuses ix c op) (contents c) op (op.run ix c).1
      (contents (op.run ix c).2) := by
  suffices hs :
    ∃ l', Rep pairs (op.run ix c).2 l' ∧ LruStep c.toCacheConfig (refuses ix c op)
      (l.map (item c)) op
      (op.run ix c).1 (l'.map (item (op.run ix c).2)) by
    obtain ⟨l', hrep, hstep⟩ := hs
    rw [← h.books.contents_eq, ← hrep.books.contents_eq] at hstep
    exact ⟨l', hrep, hstep⟩
  cases op with
  | put e => exact h.put hix e
  | get key => exact h.get hix _ key
  | find hash scanFn => exact h.find hix _ hash scanFn
  | promote entry => exact h.promoteCall _ entry
  | remove key => exact h.remove hix _ key
  | evict =>
    obtain ⟨hok, hrep, hitems⟩ := h.evict hix
    refine ⟨_, hrep, ?_, hitems⟩
    rw [hok]
    cases l <;> rfl
  | clear => exact ⟨[], ⟨h.books.clear, hix.clear _⟩, rfl⟩

/-- Every sequence of calls is a run of the list. -/
lemma Rep.run (h : Rep pairs c l) (hix : Exact ix pairs) (ops : List CacheOp) :
    LruRun c.toCacheConfig (contents c) (events ix c ops) ∧
      (runOps ix c ops).toCacheConfig = c.toCacheConfig ∧ ∃ l', Rep pairs (runOps ix c ops) l' := by
  induction ops generalizing c l with
  | nil => exact ⟨trivial, rfl, l, h⟩
  | cons op ops ih =>
    obtain ⟨l', h', hstep⟩ := h.step hix op
    obtain ⟨hrun, hcfg, hrep⟩ := ih h'
    rw [run_config op h.books] at hrun hcfg
    exact ⟨⟨hstep, hrun⟩, hcfg, hrep⟩

/-! ## The iterator -/

/-- The loop of `ht_cache_iter_next` from `j` on: it finds no live slot, or the first one. -/
lemma find_live (live : ℕ → Bool) : ∀ (n j : ℕ),
    ((List.range' j n).find? live = none ∧ (List.range' j n).filter live = []) ∨
      ∃ i, j ≤ i ∧ i < j + n ∧ (List.range' j n).find? live = some i ∧
        (List.range' j n).filter live = i :: (List.range' (i + 1) (j + n - (i + 1))).filter live
  | 0, j => .inl ⟨rfl, rfl⟩
  | n + 1, j => by
    rw [List.range'_succ, List.find?_cons, List.filter_cons]
    cases hl : live j with
    | true =>
      refine .inr ⟨j, le_rfl, by omega, rfl, ?_⟩
      rw [if_pos rfl, show j + (n + 1) - (j + 1) = n by omega]
    | false =>
      rw [if_neg Bool.false_ne_true]
      obtain ⟨h1, h2⟩ | ⟨i, hji, hin, h1, h2⟩ := find_live live n (j + 1)
      · exact .inl ⟨h1, h2⟩
      · exact .inr ⟨i, by omega, by omega, h1, by rw [h2, show j + 1 + n = j + (n + 1) by omega]⟩

/-- The iterator gives the live slots from its position on. -/
lemma iterEntries_eq (c : HtCache β) : ∀ (fuel : ℕ) (iter : CacheIter),
    c.capacity < fuel + (if iter.started then iter.idx + 1 else 0) →
      iterEntries c fuel iter = ((List.range' (if iter.started then iter.idx + 1 else 0)
        (c.capacity - (if iter.started then iter.idx + 1 else 0))).filter c.live).map (entryAt c)
  | 0, iter, hfuel => by
    rw [iterEntries, Nat.sub_eq_zero_of_le (by omega)]
    rfl
  | fuel + 1, iter, hfuel => by
    rw [iterEntries, htCacheIterNext]
    generalize (if iter.started = true then iter.idx + 1 else 0) = j at hfuel ⊢
    obtain ⟨h1, h2⟩ | ⟨i, hji, hin, h1, h2⟩ := find_live c.live (c.capacity - j) j
    · simp only [h1, h2, List.map_nil]
    · have ih := iterEntries_eq c fuel ⟨i, true⟩ (by simp only [if_true]; omega)
      rw [show j + (c.capacity - j) = c.capacity by omega] at h2
      simp only [h1, h2, List.map_cons]
      rw [ih]
      rfl

/-- The iterator gives every entry of the cache exactly once. -/
lemma Books.iterEntries (h : Books c l) {fuel : ℕ} (hfuel : c.capacity < fuel) :
    (iterEntries c fuel htCacheIterBegin).Perm
      ((contents c).map (CacheItem.pointer c.toCacheConfig)) ∧
      (Cache.iterEntries c fuel htCacheIterBegin).Nodup := by
  have heq := iterEntries_eq c fuel htCacheIterBegin hfuel
  have hinj : Function.Injective (entryAt c) := by
    intro s s' hs
    have hw : c.entrySize ≠ 0 := h.wide.ne'
    unfold entryAt at hs
    rw [← Int.natCast_mul, ← Int.natCast_mul] at hs
    exact Nat.eq_of_mul_eq_mul_right h.wide (Int.natCast_inj.mp hs)
  have hnd : ((List.range' 0 c.capacity).filter c.live).Nodup :=
    (List.nodup_range' 1 (by decide)).filter _
  have hperm : ((List.range' 0 c.capacity).filter c.live).Perm l := by
    refine (List.perm_ext_iff_of_nodup hnd h.nodup).mpr fun s => ?_
    rw [List.mem_filter, List.mem_range'_1]
    constructor
    · rintro ⟨hs, hl⟩
      exact (h.live s (by omega)).mp hl
    · intro hs
      have hlt := h.lt hs
      exact ⟨by omega, (h.live s hlt).mpr hs⟩
  rw [heq, h.contents_eq, List.map_map]
  exact ⟨hperm.map _, hnd.map hinj⟩

/-- Over an index that is an exact multimap whose inserts may fail, the cache does what the list in
the order of use does, through every sequence of calls, and the iterator then gives every entry
exactly once. -/
theorem cache_refines_lru (ix : Index β) (pairs : β → Multiset (UInt64 × ℕ)) (hix : Exact ix pairs)
    (cfg : CacheConfig) (b : β) (c₀ : HtCache β) (ops : List CacheOp)
    (hcap : cfg.capacity < 2 ^ 32 - 1) (hc : htCacheCreate cfg b = some c₀) (hb : pairs b = 0) :
    LruRun cfg [] (events ix c₀ ops) ∧ ∀ fuel, (runOps ix c₀ ops).capacity < fuel →
      (iterEntries (runOps ix c₀ ops) fuel htCacheIterBegin).Perm
          ((contents (runOps ix c₀ ops)).map (CacheItem.pointer cfg)) ∧
        (iterEntries (runOps ix c₀ ops) fuel htCacheIterBegin).Nodup := by
  have hbooks := books_create hcap hc
  have hcfg : c₀.toCacheConfig = cfg ∧ c₀.bare = b := by
    unfold htCacheCreate at hc
    split_ifs at hc
    cases hc
    exact ⟨rfl, rfl⟩
  have hrep : Rep pairs c₀ [] := ⟨hbooks, by rw [Indexed, hcfg.2, hb]; rfl⟩
  obtain ⟨hrun, hcfg', l, hend⟩ := hrep.run hix ops
  rw [hbooks.contents_eq, hcfg.1] at hrun
  refine ⟨hrun, fun fuel hfuel => ?_⟩
  have := hend.books.iterEntries hfuel
  rwa [hcfg', hcfg.1] at this

/-- A list of pairs as an index, which holds `room` of them. -/
def listIndex (room : ℕ) : Index (List (UInt64 × ℕ)) where
  insert b h v := if b.length < room then (true, (h, v) :: b) else (false, b)
  findAll b h := ((b.filter (·.1 = h)).map (·.2), b)
  removeVal b h v := (decide ((h, v) ∈ b), b.eraseP fun x => decide (x = (h, v)))
  clear _ := []

/-- The list index is an exact multimap. -/
lemma listIndex_exact (room : ℕ) : Exact (listIndex room) fun b => (b : Multiset (UInt64 × ℕ)) where
  insert b h v := by
    by_cases hb : b.length < room <;> simp [listIndex, hb]
  findAll b h := rfl
  findAll_keeps b h := rfl
  removeVal b h v := ⟨by simp [listIndex],
    congrArg _ (@List.erase_eq_eraseP' (UInt64 × ℕ) instBEqOfDecidableEq (h, v) b).symm⟩
  clear b := rfl

/-- Entries of two bytes, the second of which is the key. -/
def pairConfig (capacity : ℕ) : CacheConfig :=
  ⟨capacity, 2, fun e => (e.getLastD 0).toUInt64, some fun k e => k.getLastD 0 == e.getLastD 0⟩

/-- Three slots over an index with room for two. -/
theorem cache_refines_lru_three :
    ∃ c₀, htCacheCreate (pairConfig 3) [] = some c₀ ∧
      LruRun (pairConfig 3) [] (events (listIndex 2) c₀
        [.put [1, 7], .put [2, 7], .put [3, 9], .get [7], .promote 1, .evict, .remove [9],
          .put [4, 7]]) :=
  ⟨_, rfl, (cache_refines_lru (listIndex 2) _ (listIndex_exact 2) (pairConfig 3) [] _ _
    (by decide) rfl rfl).1⟩

end Draugr.Cache
