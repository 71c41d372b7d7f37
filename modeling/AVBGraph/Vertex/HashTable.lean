import AVBGraph.Framework.LinearProbing
import AVBGraph.Framework.Run

namespace AVBGraph

open Framework LinearProbing

def flagEmptySlot : Nat := 2 ^ 64 - 1

/-- The hash set of one vertex: the memory behind `hashtable`, the number of keys and the number
of slots. -/
structure HashTable2 where
  hashtable : Nat → Nat
  entryCounter : Nat
  hashBlockSize : Nat

namespace HashTable2

def new : HashTable2 := ⟨fun _ => flagEmptySlot, 0, 2⟩

def hash (hashBlockSize key : Nat) : Nat := key &&& (hashBlockSize - 1)

/-- The next slot in lookups and insertions. -/
def wrap (hashBlockSize index : Nat) : Nat := if hashBlockSize ≤ index + 1 then 0 else index + 1

/-- The next slot in removals. -/
def mask (hashBlockSize index : Nat) : Nat := (index + 1) &&& (hashBlockSize - 1)

/-- Whether the gap i lies on the probe path [home, j). -/
def onPath (home i j : Nat) : Bool :=
  if home ≤ j then home ≤ i && i < j else home ≤ i || i < j

/-- `none` stands for a probe loop that has seen every slot and goes on. -/
def getDestHashTableVal (h : HashTable2) (key : Nat) : Option Bool :=
  (probe (wrap h.hashBlockSize)
    (fun i => h.hashtable i = flagEmptySlot ∨ h.hashtable i = key) h.hashBlockSize
    (hash h.hashBlockSize key)).map fun i => h.hashtable i ≠ flagEmptySlot

/-- The requested size is an int. -/
def resizeHashTable (h : HashTable2) (requestedBlock : Nat) : Option HashTable2 :=
  if requestedBlock < 2 ^ 31 then
    ((List.range h.hashBlockSize).foldlM
      (rehashStep (wrap requestedBlock) (hash requestedBlock) flagEmptySlot requestedBlock
        h.hashtable) fun _ => flagEmptySlot).map fun t =>
      { h with hashtable := t, hashBlockSize := requestedBlock }
  else none

/-- The test in front of an insertion. -/
def makeRoom (h : HashTable2) : Option HashTable2 :=
  if h.hashBlockSize / 2 ≤ h.entryCounter then h.resizeHashTable (h.hashBlockSize * 2 % 2 ^ 32)
  else some h

def setDestHashTableVal (h : HashTable2) (key : Nat) : Option HashTable2 := do
  let h ← h.makeRoom
  let index ← probe (wrap h.hashBlockSize) (fun i => h.hashtable i = flagEmptySlot)
    h.hashBlockSize (hash h.hashBlockSize key)
  pure { h with
    entryCounter := (h.entryCounter + 1) % 2 ^ 32
    hashtable := Function.update h.hashtable index key }

def removeDestHashTableVal (h : HashTable2) (key : Nat) : Option HashTable2 := do
  let index ← probe (mask h.hashBlockSize)
    (fun i => h.hashtable i = flagEmptySlot ∨ h.hashtable i = key) h.hashBlockSize
    (hash h.hashBlockSize key)
  if h.hashtable index = key then
    let t ← shiftBack (mask h.hashBlockSize) (hash h.hashBlockSize) flagEmptySlot onPath
      h.hashBlockSize (Function.update h.hashtable index flagEmptySlot) index index
    pure { h with hashtable := t, entryCounter := (h.entryCounter + 2 ^ 32 - 1) % 2 ^ 32 }
  else pure h

section Slots

variable {n m : Nat}

theorem hash_lt (hn : n = 2 ^ m) (key : Nat) : hash n key < n := by
  rw [hash, hn, Nat.and_two_pow_sub_one_eq_mod]
  exact Nat.mod_lt _ (Nat.two_pow_pos m)

theorem wrap_eq {i : Nat} (hi : i < n) : wrap n i = ahead n i 1 := by
  unfold wrap ahead
  split_ifs <;> omega

theorem mask_eq (hn : n = 2 ^ m) {i : Nat} (hi : i < n) : mask n i = ahead n i 1 := by
  rw [mask, hn, Nat.and_two_pow_sub_one_eq_mod, ← hn]
  unfold ahead
  split_ifs with hlt
  · exact Nat.mod_eq_of_lt hlt
  · have : i + 1 = n := by omega
    rw [this, Nat.mod_self, Nat.sub_self]

theorem onPath_iff {h i j : Nat} (hh : h < n) (hi : i < n) (hj : j < n) :
    onPath h i j = true ↔ LinearProbing.dist n h i < LinearProbing.dist n h j := by
  unfold onPath LinearProbing.dist
  split_ifs <;> simp only [Bool.and_eq_true, Bool.or_eq_true, decide_eq_true_eq] <;> omega

end Slots

/-- The table holds the keys K, in at most half of its slots. -/
structure Valid (h : HashTable2) (K : Finset Nat) : Prop where
  holds : Holds h.hashBlockSize (hash h.hashBlockSize) flagEmptySlot h.hashtable K
  counter : h.entryCounter = K.card
  half : 2 * K.card ≤ h.hashBlockSize
  pow : ∃ m, h.hashBlockSize = 2 ^ (m + 1)
  size_le : h.hashBlockSize ≤ 2 ^ 30

theorem valid_new : Valid new ∅ where
  holds := Holds.clear _ _ _
  counter := rfl
  half := by simp [new]
  pow := ⟨0, rfl⟩
  size_le := by simp [new]

namespace Valid

variable {h : HashTable2} {K : Finset Nat} {key : Nat} (hv : Valid h K)
include hv

theorem card_lt : K.card < h.hashBlockSize := by
  obtain ⟨m, hm⟩ := hv.pow
  have hpos := Nat.two_pow_pos (m + 1)
  have hhalf := hv.half
  omega

/-- A lookup ends and answers membership. -/
theorem get (hkey : key ≠ flagEmptySlot) : h.getDestHashTableVal key = some (decide (key ∈ K)) := by
  obtain ⟨m, hm⟩ := hv.pow
  obtain ⟨i, -, hprobe, hiff, -⟩ := hv.holds.probed.find (hash_lt hm) (fun _ hi => wrap_eq hi)
    (hv.holds.exists_empty hv.card_lt) hkey
  rw [getDestHashTableVal, hprobe, Option.map_some, Option.some.injEq, decide_eq_decide, hiff,
    hv.holds.mem]
  exact ⟨fun hex => ⟨hkey, hex⟩, And.right⟩

theorem resize (hfull : h.hashBlockSize / 2 ≤ h.entryCounter) (hfew : K.card + 1 < 2 ^ 29) :
    ∃ h', h.resizeHashTable (h.hashBlockSize * 2 % 2 ^ 32) = some h' ∧ Valid h' K ∧
      h'.entryCounter < h'.hashBlockSize / 2 := by
  obtain ⟨m, hm⟩ := hv.pow
  have hhalf := hv.half
  rw [hv.counter] at hfull
  have hlt : h.hashBlockSize < 2 ^ 30 := by omega
  have hexp : m + 1 < 30 := by
    rw [hm] at hlt
    exact (Nat.pow_lt_pow_iff_right (by decide)).mp hlt
  have hsize : h.hashBlockSize * 2 ≤ 2 ^ 30 := by
    rw [hm, ← Nat.pow_succ]
    exact Nat.pow_le_pow_right (by decide) hexp
  have hmod : h.hashBlockSize * 2 % 2 ^ 32 = h.hashBlockSize * 2 := Nat.mod_eq_of_lt (by omega)
  have hpow : h.hashBlockSize * 2 = 2 ^ (m + 1 + 1) := by rw [hm, ← Nat.pow_succ]
  have hcard := hv.card_lt
  obtain ⟨t, ht, hholds⟩ := hv.holds.rehash (hash_lt hpow)
    (fun _ hi => wrap_eq hi) (by omega : K.card < h.hashBlockSize * 2)
  refine ⟨{ h with hashtable := t, hashBlockSize := h.hashBlockSize * 2 }, ?_,
    ⟨hholds, hv.counter, ?_, ⟨m + 1, hpow⟩, hsize⟩, ?_⟩
  · rw [hmod, resizeHashTable, if_pos (by omega), ht]
    rfl
  · show 2 * K.card ≤ h.hashBlockSize * 2
    omega
  · show h.entryCounter < h.hashBlockSize * 2 / 2
    rw [hv.counter]
    omega

theorem makeRoom (hfew : K.card + 1 < 2 ^ 29) : ∃ h', h.makeRoom = some h' ∧ Valid h' K ∧
    h'.entryCounter < h'.hashBlockSize / 2 := by
  unfold HashTable2.makeRoom
  split_ifs with hfull
  · exact hv.resize hfull hfew
  · exact ⟨h, rfl, hv, not_le.mp hfull⟩

/-- An insertion of a new key ends, and keeps half of the slots free. -/
theorem set (hkey : key ≠ flagEmptySlot) (hnew : key ∉ K) (hfew : K.card + 1 < 2 ^ 29) :
    ∃ h', h.setDestHashTableVal key = some h' ∧ Valid h' (insert key K) := by
  obtain ⟨g, hg, hvg, hroom⟩ := hv.makeRoom hfew
  obtain ⟨m, hm⟩ := hvg.pow
  obtain ⟨i, -, hprobe, hholds⟩ := hvg.holds.place (hash_lt hm) (fun _ hi => wrap_eq hi)
    hvg.card_lt hkey hnew
  have hcounter := hvg.counter
  have hcard := Finset.card_insert_of_notMem hnew
  refine ⟨⟨Function.update g.hashtable i key, (g.entryCounter + 1) % 2 ^ 32, g.hashBlockSize⟩, ?_,
    ⟨hholds, ?_, ?_, hvg.pow, hvg.size_le⟩⟩
  · rw [setDestHashTableVal, hg, Option.bind_eq_bind, Option.bind_some, hprobe]
    rfl
  · show (g.entryCounter + 1) % 2 ^ 32 = _
    rw [Nat.mod_eq_of_lt (by omega), hcounter, hcard]
  · show 2 * (insert key K).card ≤ g.hashBlockSize
    omega

/-- A removal ends, whether the key is present or not. -/
theorem remove (hkey : key ≠ flagEmptySlot) :
    ∃ h', h.removeDestHashTableVal key = some h' ∧ Valid h' (K.erase key) := by
  obtain ⟨m, hm⟩ := hv.pow
  obtain ⟨i, hi, hprobe, hiff, hat⟩ := hv.holds.probed.find (hash_lt hm)
    (fun _ hi => mask_eq hm hi) (hv.holds.exists_empty hv.card_lt) hkey
  by_cases hti : h.hashtable i = key
  · obtain ⟨t, ht, hholds⟩ := hv.holds.remove (hash_lt hm) (fun _ hi => mask_eq hm hi)
      (fun _ hh _ hi _ hj => onPath_iff hh hi hj) hv.card_lt hi (by rw [hti]; exact hkey)
    rw [hti] at hholds
    have hmem : key ∈ K := (hv.holds.mem key).mpr ⟨hkey, i, hi, hti⟩
    have hcard := Finset.card_erase_add_one hmem
    have hcounter := hv.counter
    have hhalf := hv.half
    have hsize := hv.size_le
    refine ⟨{ h with hashtable := t, entryCounter := (h.entryCounter + 2 ^ 32 - 1) % 2 ^ 32 }, ?_,
      ⟨hholds, ?_, ?_, hv.pow, hv.size_le⟩⟩
    · rw [removeDestHashTableVal, hprobe, Option.bind_eq_bind, Option.bind_some, if_pos hti, ht]
      rfl
    · show (h.entryCounter + 2 ^ 32 - 1) % 2 ^ 32 = _
      omega
    · show 2 * (K.erase key).card ≤ h.hashBlockSize
      omega
  · have hempty : h.hashtable i = flagEmptySlot := by
      by_contra hne
      exact hti (hat hne)
    have habsent : key ∉ K := by
      rw [hv.holds.mem]
      rintro ⟨-, hex⟩
      exact hiff.mpr hex hempty
    refine ⟨h, ?_, ?_⟩
    · rw [removeDestHashTableVal, hprobe, Option.bind_eq_bind, Option.bind_some, if_neg hti]
      rfl
    · rwa [Finset.erase_eq_of_notMem habsent]

end Valid

/-- What a vertex does with its hash set. -/
inductive HashOp
  | set (key : Nat)
  | remove (key : Nat)
  | get (key : Nat)

def step (h : HashTable2) : HashOp → Option HashTable2
  | .set key => h.setDestHashTableVal key
  | .remove key => h.removeDestHashTableVal key
  | .get key => (h.getDestHashTableVal key).map fun _ => h

/-- The keys set and not removed since. Keys differ from the empty slot, only absent keys are set,
and fewer than 2^29 are live. -/
def keysStep (K : Finset Nat) : HashOp → Option (Finset Nat)
  | .set key =>
    if key ≠ flagEmptySlot ∧ key ∉ K ∧ K.card + 1 < 2 ^ 29 then some (insert key K) else none
  | .remove key => if key ≠ flagEmptySlot then some (K.erase key) else none
  | .get key => if key ≠ flagEmptySlot then some K else none

/-- Every operation ends, and keeps the table a table of its keys. -/
theorem Valid.step {h : HashTable2} {K K' : Finset Nat} (hv : Valid h K) {op : HashOp}
    (hop : keysStep K op = some K') : ∃ h', h.step op = some h' ∧ Valid h' K' := by
  cases op with
  | set key =>
    simp only [keysStep] at hop
    split_ifs at hop with hok
    obtain ⟨hkey, hnew, hfew⟩ := hok
    rw [← Option.some.inj hop]
    exact hv.set hkey hnew hfew
  | remove key =>
    simp only [keysStep] at hop
    split_ifs at hop with hkey
    rw [← Option.some.inj hop]
    exact hv.remove hkey
  | get key =>
    simp only [keysStep] at hop
    split_ifs at hop with hkey
    rw [← Option.some.inj hop]
    exact ⟨h, by simp [HashTable2.step, hv.get hkey], hv⟩

theorem Valid.run {h : HashTable2} {K K' : Finset Nat} (hv : Valid h K) {ops : List HashOp}
    (hops : exec keysStep K ops = some K') : ∃ h', exec HashTable2.step h ops = some h' ∧ Valid h' K' := by
  induction ops generalizing h K with
  | nil =>
    rw [← Option.some.inj hops]
    exact ⟨h, rfl, hv⟩
  | cons op ops ih =>
    cases hop : keysStep K op with
    | none => simp [exec, hop] at hops
    | some L =>
      obtain ⟨g, hg, hvg⟩ := hv.step hop
      simp only [exec, hop, Option.bind_some] at hops
      obtain ⟨h', hh', hv'⟩ := ih hvg hops
      exact ⟨h', by simp [exec, hg, hh'], hv'⟩

/-- A hash set is a faithful set: every probe loop ends, lookups answer membership, the size stays
a power of two and at most half of the slots are in use. -/
theorem hashTable2_faithful {ops : List HashOp} {K : Finset Nat}
    (hops : exec keysStep ∅ ops = some K) : ∃ h, exec step new ops = some h ∧
      (∀ key, key ≠ flagEmptySlot → h.getDestHashTableVal key = some (decide (key ∈ K))) ∧
      (∃ m, h.hashBlockSize = 2 ^ m) ∧
      2 * ((Finset.range h.hashBlockSize).filter fun i => h.hashtable i ≠ flagEmptySlot).card ≤
        h.hashBlockSize := by
  obtain ⟨h, hh, hv⟩ := valid_new.run hops
  obtain ⟨m, hm⟩ := hv.pow
  refine ⟨h, hh, fun key hkey => hv.get hkey, ⟨m + 1, hm⟩, ?_⟩
  rw [hv.holds.card_occupied]
  exact hv.half

/-- Two colliding keys, the first of which is removed. -/
theorem hashTable2_faithful_collision :
    ∃ h, exec step new [.set 1, .set 5, .set 9, .remove 1] = some h ∧
      h.getDestHashTableVal 5 = some true ∧ h.getDestHashTableVal 1 = some false := by
  obtain ⟨h, hh, hget, -⟩ := hashTable2_faithful
    (by decide : exec keysStep ∅ [.set 1, .set 5, .set 9, .remove 1] = some {5, 9})
  refine ⟨h, hh, ?_, ?_⟩
  · rw [hget 5 (by decide)]
    rfl
  · rw [hget 1 (by decide)]
    rfl

/-- The hash set behind the key set of a vertex. -/
def Models (h : HashTable2) (m : Nat → Bool) : Prop :=
  ∃ K : Finset Nat, Valid h K ∧ ∀ key, m key = decide (key ∈ K)

namespace Models

variable {h : HashTable2} {m : Nat → Bool} {key : Nat}

theorem get (hm : Models h m) (hkey : key ≠ flagEmptySlot) :
    h.getDestHashTableVal key = some (m key) := by
  obtain ⟨K, hv, hK⟩ := hm
  rw [hv.get hkey, hK]

theorem remove (hm : Models h m) (hkey : key ≠ flagEmptySlot) :
    ∃ h', h.removeDestHashTableVal key = some h' ∧ Models h' (Function.update m key false) := by
  obtain ⟨K, hv, hK⟩ := hm
  obtain ⟨h', hh', hv'⟩ := hv.remove hkey
  refine ⟨h', hh', K.erase key, hv', fun d => ?_⟩
  by_cases hd : d = key
  · simp [hd]
  · simp [hd, hK]

theorem set (hm : Models h m) (hkey : key ≠ flagEmptySlot) (hnew : m key = false)
    (hfew : ∀ K : Finset Nat, (∀ d ∈ K, m d = true) → K.card + 1 < 2 ^ 29) :
    ∃ h', h.setDestHashTableVal key = some h' ∧ Models h' (Function.update m key true) := by
  obtain ⟨K, hv, hK⟩ := hm
  have habsent : key ∉ K := by
    rw [hK] at hnew
    exact of_decide_eq_false hnew
  obtain ⟨h', hh', hv'⟩ := hv.set hkey habsent (hfew K fun d hd => by simp [hK, hd])
  refine ⟨h', hh', insert key K, hv', fun d => ?_⟩
  by_cases hd : d = key
  · simp [hd]
  · simp [hd, hK]

/-- Removing keys one after the other. -/
theorem removeAll (hm : Models h m) {keys : List Nat} (hkeys : ∀ key ∈ keys, key ≠ flagEmptySlot) :
    ∃ h', keys.foldlM removeDestHashTableVal h = some h' ∧
      Models h' fun d => m d && decide (d ∉ keys) := by
  induction keys generalizing h m with
  | nil => exact ⟨h, rfl, by simpa using hm⟩
  | cons key keys ih =>
    obtain ⟨g, hg, hmg⟩ := hm.remove (hkeys key (by simp))
    obtain ⟨h', hh', hm'⟩ := ih hmg fun k hk => hkeys k (by simp [hk])
    refine ⟨h', by simp [hg, hh'], ?_⟩
    have hsame : (fun d => Function.update m key false d && decide (d ∉ keys)) =
        fun d => m d && decide (d ∉ key :: keys) := by
      funext d
      by_cases hd : d = key
      · simp [hd]
      · simp [hd]
    rwa [← hsame]

end Models

end HashTable2

end AVBGraph
