import AVBGraph.Framework.Run
import AVBGraph.Memory.FreeList

namespace AVBGraph.Memory

open Framework

/-- `MEMORY_VECTOR_SIZE` and `fixedSize`. -/
theorem sixteen_pos : 0 < 16 := by decide

def vectorShape : Shape := ⟨16, 1, sixteen_pos, Nat.one_pos⟩

def FOURMB : Nat := 4 * 1024 * 1024
def EIGHTMB : Nat := 8 * 1024 * 1024
def SIXTEENMB : Nat := 16 * 1024 * 1024

/-- A range of addresses. -/
structure Region where
  base : Nat
  length : Nat
deriving DecidableEq

namespace Region

def Disjoint (r r' : Region) : Prop := r.base + r.length ≤ r'.base ∨ r'.base + r'.length ≤ r.base

instance (r r' : Region) : Decidable (r.Disjoint r') := inferInstanceAs (Decidable (_ ∨ _))

def Inside (r r' : Region) : Prop := r'.base ≤ r.base ∧ r.base + r.length ≤ r'.base + r'.length

instance (r r' : Region) : Decidable (r.Inside r') := inferInstanceAs (Decidable (_ ∧ _))

variable {r r' s s' : Region}

theorem Inside.refl (r : Region) : r.Inside r := ⟨le_refl _, le_refl _⟩

theorem Inside.trans (h : r.Inside r') (h' : r'.Inside s) : r.Inside s :=
  ⟨h'.1.trans h.1, h.2.trans h'.2⟩

theorem Disjoint.symm (h : r.Disjoint s) : s.Disjoint r := Or.symm h

theorem Disjoint.mono (h : r'.Disjoint s') (hr : r.Inside r') (hs : s.Inside s') : r.Disjoint s := by
  obtain ⟨hr₁, hr₂⟩ := hr
  obtain ⟨hs₁, hs₂⟩ := hs
  rcases h with h | h
  · exact .inl (by omega)
  · exact .inr (by omega)

end Region

/-- The base address of the next anonymous mapping, given those that exist and the length. -/
abbrev Mmap := List Region → Nat → Nat

/-- A new mapping overlaps none of the existing ones. -/
def Mmap.Fresh (mmap : Mmap) : Prop :=
  ∀ mapped length, ∀ r ∈ mapped, Region.Disjoint r ⟨mmap mapped length, length⟩

/-- One mapped region, handed out from its start up to `offset`. -/
structure GlobalAllocator where
  mem : Nat
  offset : Nat
  totalSpace : Nat
deriving DecidableEq

namespace GlobalAllocator

/-- The new allocator and the mapping it asks for. -/
def init (mmap : Mmap) (mapped : List Region) (size : Nat) (isInit : Bool) :
    GlobalAllocator × List Region :=
  let totalSpace :=
    if isInit then size * (1024 * 1024)
    else if size > SIXTEENMB then size else size * (1024 * 1024)
  let mem := mmap mapped totalSpace
  (⟨mem, 0, totalSpace⟩, mapped ++ [⟨mem, totalSpace⟩])

def allocate (g : GlobalAllocator) (size : Nat) : Nat × GlobalAllocator :=
  (g.mem + g.offset, { g with offset := g.offset + size })

def isFreeSpace (g : GlobalAllocator) (block_size : Nat) : Bool :=
  !decide (g.offset + block_size > g.totalSpace)

def region (g : GlobalAllocator) : Region := ⟨g.mem, g.totalSpace⟩

/-- The part of the region that has been handed out. -/
def used (g : GlobalAllocator) : Region := ⟨g.mem, g.offset⟩

theorem init_eq {mmap : Mmap} (hfresh : mmap.Fresh) (mapped : List Region) (size : Nat)
    (isInit : Bool) :
    ∃ g, init mmap mapped size isInit = (g, mapped ++ [g.region]) ∧ g.offset = 0 ∧
      (∀ r ∈ mapped, r.Disjoint g.region) ∧
      g.totalSpace = if isInit then size * (1024 * 1024)
        else if size > SIXTEENMB then size else size * (1024 * 1024) :=
  ⟨_, rfl, rfl, hfresh mapped _, rfl⟩

end GlobalAllocator

namespace TwoLevelVector

def insert (q : TwoLevel GlobalAllocator) (ga : GlobalAllocator) :
    Option (TwoLevel GlobalAllocator) :=
  TwoLevel.insert vectorShape q ga

/-- `IndrArray[curIndex]->getBlockArr()[IndrArray[curIndex]->getCurIndex()]`. -/
def current (q : TwoLevel GlobalAllocator) : Option GlobalAllocator := do
  let b ← q.curBlock
  load b.blockArr b.cur

/-- The current allocator hands out a block. -/
def allocateCur (q : TwoLevel GlobalAllocator) (size : Nat) :
    Option (Nat × TwoLevel GlobalAllocator) := do
  let b ← q.curBlock
  let ga ← load b.blockArr b.cur
  let (ptr, ga) := ga.allocate size
  let blockArr ← store b.blockArr b.cur ga
  let q ← q.setCurBlock { b with blockArr }
  return (ptr, q)

def getBlock (mmap : Mmap) (mapped : List Region) (q : TwoLevel GlobalAllocator)
    (requested_block : Nat) : Option (Nat × TwoLevel GlobalAllocator × List Region) := do
  let ga ← current q
  if ga.isFreeSpace requested_block then
    let (ptr, q) ← allocateCur q requested_block
    return (ptr, q, mapped)
  else
    let (ga, mapped) :=
      if requested_block = 40 ∨ requested_block = 32 then
        GlobalAllocator.init mmap mapped 512 false
      else if requested_block ≤ FOURMB then GlobalAllocator.init mmap mapped 512 false
      else if requested_block > FOURMB ∧ requested_block ≤ EIGHTMB then
        GlobalAllocator.init mmap mapped 512 false
      else if requested_block > EIGHTMB ∧ requested_block ≤ SIXTEENMB then
        GlobalAllocator.init mmap mapped 512 false
      else GlobalAllocator.init mmap mapped requested_block false
    let q ← insert q ga
    let (ptr, q) ← allocateCur q requested_block
    return (ptr, q, mapped)

end TwoLevelVector

structure AllocatorBlock where
  memBlock : TwoLevel GlobalAllocator
  freeList : Option (TwoLevel Nat)

/-- A bucket; `isAvailable` is not set when the bucket is allocated. -/
structure MemoryBucket where
  blockSize : Nat
  freeBlock : AllocatorBlock
  isAvailable : Option Bool

/-- The table of the pools by block size; a chain is the list of its buckets, the head first. -/
structure HashTableMemoryIndex where
  hashIndexArr : List (List MemoryBucket)
  curSize1 : Nat
  entryCounter1 : Nat

def PRIMETABLE : List Nat := [4, 16, 128, 512, 1024, 8192, 16384, 131072, 524288]

/-- `none` for the size -1 it returns for a number that is not in the table. -/
def getCurSizeTable (curSize2 : Nat) : Option Nat :=
  if curSize2 < 524288 then
    ((PRIMETABLE.zip PRIMETABLE.tail).find? fun p => p.1 == curSize2).map (·.2)
  else some (curSize2 * 2)

def defaultSize : Nat := 907

namespace HashTableMemoryIndex

def chain (t : HashTableMemoryIndex) (key : Nat) : Option (List MemoryBucket) :=
  t.hashIndexArr[key % t.curSize1]?

def getIndexVal (t : HashTableMemoryIndex) (key : Nat) : Option MemoryBucket := do
  let chain ← t.chain key
  chain.find? (·.blockSize == key)

/-- A write through the pointer that `getIndexVal` returns. -/
def setIndexVal (t : HashTableMemoryIndex) (key : Nat) (b : MemoryBucket) : HashTableMemoryIndex :=
  { t with
    hashIndexArr := t.hashIndexArr.modify (key % t.curSize1) fun chain =>
      chain.set (chain.findIdx (·.blockSize == key)) b }

/-- A new bucket at the head of its chain; copied buckets lose their `isAvailable`. -/
def link (arr : List (List MemoryBucket)) (size : Nat) (b : MemoryBucket) :
    List (List MemoryBucket) :=
  arr.modify (b.blockSize % size) ({ b with isAvailable := none } :: ·)

def resizeHashTable (t : HashTableMemoryIndex) : Option HashTableMemoryIndex :=
  if t.curSize1 ≠ 0 then
    (getCurSizeTable t.curSize1).map fun size =>
      { t with
        hashIndexArr := t.hashIndexArr.flatten.foldl (link · size ·) (List.replicate size [])
        curSize1 := size }
  else some { t with hashIndexArr := List.replicate defaultSize [], curSize1 := defaultSize }

/-- The constructor. -/
def new : Option HashTableMemoryIndex := resizeHashTable ⟨[], 0, 0⟩

def insert (t : HashTableMemoryIndex) (key : Nat) (val : AllocatorBlock) :
    Option HashTableMemoryIndex := do
  let t := { t with entryCounter1 := t.entryCounter1 + 1 }
  let t ← if t.entryCounter1 > t.curSize1 then t.resizeHashTable else some t
  match t.getIndexVal key with
  | none => return { t with hashIndexArr := link t.hashIndexArr t.curSize1 ⟨key, val, none⟩ }
  | some _ => return t

end HashTableMemoryIndex

/-- The allocator of a thread; `mapped` are the regions the system has mapped so far. -/
structure PerThreadMemoryAllocator where
  block : HashTableMemoryIndex
  mapped : List Region

namespace PerThreadMemoryAllocator

def TARGET_BLOCK_SIZE : Nat := 32 * 64
def BlockSize (i : Nat) : Nat := if i = 0 then 32 * 64 else 0
def spaceNeeded (i : Nat) : Nat := if i = 0 then 4 else 0

/-- The pool of one block size. -/
def initSize (mmap : Mmap) (s : PerThreadMemoryAllocator) (i : Nat) :
    Option PerThreadMemoryAllocator :=
  if BlockSize i ≠ TARGET_BLOCK_SIZE then some s
  else do
    let vec_two ← TwoLevel.initVal.setIndrArray vectorShape
    let (gl, mapped) := GlobalAllocator.init mmap s.mapped (spaceNeeded i) true
    let vec_two ← TwoLevelVector.insert vec_two gl
    let block ← s.block.insert (BlockSize i) ⟨vec_two, none⟩
    let m ← block.getIndexVal (BlockSize i)
    return ⟨block.setIndexVal (BlockSize i) { m with isAvailable := some false }, mapped⟩

def init (mmap : Mmap) : Option PerThreadMemoryAllocator := do
  let block ← HashTableMemoryIndex.new
  (List.range 16).foldlM (initSize mmap) ⟨block, []⟩

/-- A block of the size the bucket is for, taken from the regions. -/
def fromRegions (mmap : Mmap) (s : PerThreadMemoryAllocator) (m : MemoryBucket)
    (requestedBlock : Nat) : Option (Nat × PerThreadMemoryAllocator) := do
  let (ptr, q, mapped) ←
    TwoLevelVector.getBlock mmap s.mapped m.freeBlock.memBlock requestedBlock
  let m := { m with freeBlock := { m.freeBlock with memBlock := q } }
  return (ptr, ⟨s.block.setIndexVal requestedBlock m, mapped⟩)

def Allocate (mmap : Mmap) (s : PerThreadMemoryAllocator) (requestedBlock : Nat) :
    Option (Nat × PerThreadMemoryAllocator) :=
  if requestedBlock ≤ SIXTEENMB then do
    let m ← s.block.getIndexVal requestedBlock
    let isAvailable ← m.isAvailable
    if !isAvailable then s.fromRegions mmap m requestedBlock
    else
      let q ← m.freeBlock.freeList
      let isEmpty ← TwoLevelQueue.empty q
      if isEmpty then s.fromRegions mmap m requestedBlock
      else
        let (ptr, q) ← TwoLevelQueue.get_block q
        let m := { m with freeBlock := { m.freeBlock with freeList := some q } }
        return (ptr, { s with block := s.block.setIndexVal requestedBlock m })
  else
    let ptr := mmap s.mapped requestedBlock
    some (ptr, { s with mapped := s.mapped ++ [⟨ptr, requestedBlock⟩] })

end PerThreadMemoryAllocator

namespace TwoLevelVector

/-- The vector holds the allocators `gas`, in the order in which they were inserted. -/
def Contents (q : TwoLevel GlobalAllocator) (gas : List GlobalAllocator) : Prop :=
  ∃ full top ga, q.Holds vectorShape full (top ++ [ga]) ∧ full.flatten ++ top ++ [ga] = gas

variable {q : TwoLevel GlobalAllocator} {gas : List GlobalAllocator} {ga : GlobalAllocator}

/-- One slot for each block: the growth step finds `curSize` blocks and keeps them all. -/
theorem insert_eq {full : List (List GlobalAllocator)} {top : List GlobalAllocator}
    (h : q.Holds vectorShape full top) (ga : GlobalAllocator) :
    ∃ q', insert q ga = some q' ∧ Contents q' (full.flatten ++ top ++ [ga]) := by
  obtain ⟨b, -, hb⟩ := h.curBlock
  rcases hb.length_le.lt_or_eq with hlt | heq
  · obtain ⟨q', hins, hq', -⟩ := h.insert_room hlt ga
    exact ⟨q', hins, full, top, ga, hq', rfl⟩
  have hslots : (full.length + 1 : Int) ≤ q.curSize := by
    obtain ⟨bs, b, rest, -, -, -, hcells⟩ := h.cells
    simp only [vectorShape] at hcells
    omega
  rcases hslots.lt_or_eq with hlt | hfull
  · obtain ⟨q', hins, hq', -⟩ := h.insert_next heq (by simpa [vectorShape] using hlt) ga
    exact ⟨q', hins, full ++ [top], [], ga, hq', by simp⟩
  · obtain ⟨q', hins, hq', -⟩ := h.insert_grow heq (by simpa [vectorShape] using hfull) ga
    have htake : (full ++ [top]).take q.curSize.toNat = full ++ [top] := by
      rw [← hfull]
      exact List.take_of_length_le (by simp)
    rw [htake] at hq'
    exact ⟨q', hins, full ++ [top], [], ga, hq', by simp⟩

theorem Contents.insert (h : Contents q gas) (ga : GlobalAllocator) :
    ∃ q', insert q ga = some q' ∧ Contents q' (gas ++ [ga]) := by
  obtain ⟨full, top, ga', hq, rfl⟩ := h
  obtain ⟨q', hins, hq'⟩ := insert_eq hq ga
  exact ⟨q', hins, by simpa using hq'⟩

theorem Contents.last (h : Contents q (gas ++ [ga])) :
    ∃ full top, q.Holds vectorShape full (top ++ [ga]) ∧ full.flatten ++ top = gas := by
  obtain ⟨full, top, ga', hq, heq⟩ := h
  obtain ⟨hgas, hga⟩ := List.append_inj' heq rfl
  obtain rfl := List.singleton_inj.mp hga
  exact ⟨full, top, hq, hgas⟩

theorem Contents.current (h : Contents q (gas ++ [ga])) : current q = some ga := by
  obtain ⟨full, top, hq, -⟩ := h.last
  obtain ⟨b, hb, htop⟩ := hq.curBlock
  simp [TwoLevelVector.current, hb, htop.last]

theorem Contents.allocateCur (h : Contents q (gas ++ [ga])) (size : Nat) :
    ∃ q', allocateCur q size = some ((ga.allocate size).1, q') ∧
      Contents q' (gas ++ [(ga.allocate size).2]) := by
  obtain ⟨full, top, hq, hgas⟩ := h.last
  obtain ⟨b, hb, htop⟩ := hq.curBlock
  obtain ⟨blockArr, hstore, hb'⟩ := htop.setLast (ga.allocate size).2
  obtain ⟨q', hset, hq', -⟩ := hq.setCurBlock hb'
  refine ⟨q', ?_, full, top, _, hq', by rw [hgas]⟩
  simp [TwoLevelVector.allocateCur, hb, htop.last, hstore, hset]

end TwoLevelVector

/-- The blocks handed out from the regions of the allocators. -/
structure Handed (gas : List GlobalAllocator) (blocks : List Region) : Prop where
  regions : (gas.map GlobalAllocator.region).Pairwise Region.Disjoint
  bounded : ∀ g ∈ gas, g.used.Inside g.region
  inside : ∀ b ∈ blocks, ∃ g ∈ gas, b.Inside g.used
  blocks : blocks.Pairwise Region.Disjoint

namespace Handed

variable {gas : List GlobalAllocator} {ga : GlobalAllocator} {blocks : List Region}

theorem mem_region (h : Handed gas blocks) {b : Region} (hb : b ∈ blocks) :
    ∃ r ∈ gas.map GlobalAllocator.region, b.Inside r := by
  obtain ⟨g, hg, hin⟩ := h.inside b hb
  exact ⟨g.region, List.mem_map_of_mem hg, hin.trans (h.bounded g hg)⟩

theorem add (h : Handed gas blocks) (hnew : ∀ r ∈ gas.map GlobalAllocator.region, r.Disjoint ga.region)
    (hzero : ga.offset = 0) : Handed (gas ++ [ga]) blocks where
  regions := by
    rw [List.map_append, List.pairwise_append]
    exact ⟨h.regions, List.pairwise_singleton _ _, by simpa using hnew⟩
  bounded g hg := by
    rcases List.mem_append.mp hg with hg | hg
    · exact h.bounded g hg
    · rw [List.mem_singleton.mp hg]
      exact ⟨le_refl _, by simp [GlobalAllocator.used, GlobalAllocator.region, hzero]⟩
  inside b hb :=
    let ⟨g, hg, hin⟩ := h.inside b hb
    ⟨g, List.mem_append_left _ hg, hin⟩
  blocks := h.blocks

theorem allocate {size : Nat} (h : Handed (gas ++ [ga]) blocks)
    (hfree : ga.isFreeSpace size = true) :
    Handed (gas ++ [(ga.allocate size).2]) (blocks ++ [⟨(ga.allocate size).1, size⟩]) := by
  have hspace : ga.offset + size ≤ ga.totalSpace := by
    simpa [GlobalAllocator.isFreeSpace] using hfree
  have hgrown : ga.used.Inside (ga.allocate size).2.used :=
    ⟨le_refl _, by simp [GlobalAllocator.used, GlobalAllocator.allocate]⟩
  have hregions := h.regions
  rw [List.map_append, List.pairwise_append] at hregions
  -- the new block lies behind all blocks of its region
  have hnew : ∀ b ∈ blocks, b.Disjoint ⟨(ga.allocate size).1, size⟩ := by
    intro b hb
    obtain ⟨g, hg, hin⟩ := h.inside b hb
    rcases List.mem_append.mp hg with hg' | hg'
    · have hdis : g.region.Disjoint ga.region :=
        hregions.2.2 _ (List.mem_map_of_mem hg') _ (by simp)
      refine hdis.mono (hin.trans (h.bounded g hg)) ⟨?_, ?_⟩
      · simp [GlobalAllocator.region, GlobalAllocator.allocate]
      · simp only [GlobalAllocator.region, GlobalAllocator.allocate]
        omega
    · rw [List.mem_singleton.mp hg'] at hin
      exact .inl hin.2
  exact {
    regions := by
      rw [List.map_append, List.pairwise_append]
      exact hregions
    bounded := fun g hg => by
      rcases List.mem_append.mp hg with hg | hg
      · exact h.bounded g (List.mem_append_left _ hg)
      · rw [List.mem_singleton.mp hg]
        exact ⟨le_refl _, Nat.add_le_add_left hspace _⟩
    inside := fun b hb => by
      rcases List.mem_append.mp hb with hb | hb
      · obtain ⟨g, hg, hin⟩ := h.inside b hb
        rcases List.mem_append.mp hg with hg | hg
        · exact ⟨g, List.mem_append_left _ hg, hin⟩
        · rw [List.mem_singleton.mp hg] at hin
          exact ⟨_, List.mem_append_right _ (List.mem_singleton_self _), hin.trans hgrown⟩
      · refine ⟨_, List.mem_append_right _ (List.mem_singleton_self _), ?_⟩
        rw [List.mem_singleton.mp hb]
        exact ⟨by simp [GlobalAllocator.used, GlobalAllocator.allocate],
          by simp [GlobalAllocator.used, GlobalAllocator.allocate, Nat.add_assoc]⟩
    blocks := by
      rw [List.pairwise_append]
      exact ⟨h.blocks, List.pairwise_singleton _ _, by simpa using hnew⟩ }

end Handed

section Blocks

variable {mmap : Mmap}

theorem TwoLevelVector.getBlock_spec (hfresh : mmap.Fresh) {q : TwoLevel GlobalAllocator}
    {gas : List GlobalAllocator} {blocks : List Region} (hq : Contents q gas)
    (h : Handed gas blocks) {size : Nat} (hsize : size ≤ FOURMB) :
    ∃ ptr q' gas', getBlock mmap (gas.map GlobalAllocator.region) q size =
        some (ptr, q', gas'.map GlobalAllocator.region) ∧
      Contents q' gas' ∧ Handed gas' (blocks ++ [⟨ptr, size⟩]) := by
  obtain ⟨gas, ga, rfl⟩ : ∃ gas' ga, gas = gas' ++ [ga] := by
    obtain ⟨full, top, ga, -, rfl⟩ := hq
    exact ⟨_, _, rfl⟩
  cases hfree : ga.isFreeSpace size with
  | true =>
    obtain ⟨q', halloc, hq'⟩ := hq.allocateCur size
    refine ⟨_, q', _, ?_, hq', h.allocate hfree⟩
    simp [getBlock, hq.current, hfree, halloc, GlobalAllocator.region, GlobalAllocator.allocate]
  | false =>
    obtain ⟨ga₁, hinit, hzero, hnew, hspace⟩ :=
      GlobalAllocator.init_eq hfresh ((gas ++ [ga]).map GlobalAllocator.region) 512 false
    have hfree₁ : ga₁.isFreeSpace size = true := by
      simp only [FOURMB] at hsize
      have hlt : ¬(0 + size > ga₁.totalSpace) := by
        rw [hspace, if_neg (by decide), if_neg (by decide)]
        omega
      rw [GlobalAllocator.isFreeSpace, hzero, decide_eq_false hlt]
      rfl
    obtain ⟨q₁, hins, hq₁⟩ := hq.insert ga₁
    obtain ⟨q', halloc, hq'⟩ := hq₁.allocateCur size
    refine ⟨_, q', _, ?_, hq', (h.add hnew hzero).allocate hfree₁⟩
    have hregions : (gas ++ [ga] ++ [(ga₁.allocate size).2]).map GlobalAllocator.region =
        (gas ++ [ga]).map GlobalAllocator.region ++ [ga₁.region] := by
      rw [List.map_append]
      rfl
    rw [hregions]
    simp only [getBlock, hq.current, Option.bind_eq_bind, Option.bind_some, hfree, hsize, if_true,
      ite_self, hinit, hins, halloc]
    rfl

/-- The table with the one bucket `b`. -/
def poolTable (b : MemoryBucket) : HashTableMemoryIndex where
  hashIndexArr := (List.replicate defaultSize []).modify (2048 % defaultSize) (b :: ·)
  curSize1 := defaultSize
  entryCounter1 := 1

theorem getIndexVal_poolTable {b : MemoryBucket} (hb : b.blockSize = 2048) :
    (poolTable b).getIndexVal 2048 = some b := by
  have hchain : (poolTable b).chain 2048 = some [b] := by
    rw [HashTableMemoryIndex.chain, poolTable, List.getElem?_modify_eq,
      List.getElem?_replicate_of_lt (by decide)]
    rfl
  simp [HashTableMemoryIndex.getIndexVal, hchain, hb]

theorem setIndexVal_poolTable {b : MemoryBucket} (hb : b.blockSize = 2048) (b' : MemoryBucket) :
    (poolTable b).setIndexVal 2048 b' = poolTable b' := by
  have hhead : (fun chain : List MemoryBucket =>
      chain.set (chain.findIdx (·.blockSize == 2048)) b') ∘ (b :: ·) = (b' :: ·) := by
    funext chain
    simp [List.findIdx_cons, hb]
  simp only [HashTableMemoryIndex.setIndexVal, poolTable, List.modify_modify_eq, hhead]

theorem insert_new (val : AllocatorBlock) :
    HashTableMemoryIndex.insert ⟨List.replicate defaultSize [], defaultSize, 0⟩ 2048 val =
      some (poolTable ⟨2048, val, none⟩) := by
  have hsize : ¬(0 + 1 > defaultSize) := by decide
  have hnone : (⟨List.replicate defaultSize [], defaultSize, 0 + 1⟩ :
      HashTableMemoryIndex).getIndexVal 2048 = none := by
    rw [HashTableMemoryIndex.getIndexVal, HashTableMemoryIndex.chain,
      List.getElem?_replicate_of_lt (by decide)]
    rfl
  simp only [HashTableMemoryIndex.insert, if_neg hsize, Option.bind_eq_bind, Option.bind_some,
    hnone]
  rfl

/-- The state after `init` and any number of calls that handed out `blocks`. -/
def PoolHolds (s : PerThreadMemoryAllocator) (blocks : List Region) : Prop :=
  ∃ q gas, s.block = poolTable ⟨2048, ⟨q, none⟩, some false⟩ ∧ TwoLevelVector.Contents q gas ∧
    gas.map GlobalAllocator.region = s.mapped ∧ Handed gas blocks

theorem foldlM_initSize (mmap : Mmap) {l : List Nat} (hl : 0 ∉ l) (s : PerThreadMemoryAllocator) :
    l.foldlM (PerThreadMemoryAllocator.initSize mmap) s = some s := by
  induction l with
  | nil => rfl
  | cons i l ih =>
    obtain ⟨hi, hl⟩ := List.ne_and_not_mem_of_not_mem_cons hl
    have hstep : PerThreadMemoryAllocator.initSize mmap s i = some s := by
      simp [PerThreadMemoryAllocator.initSize, PerThreadMemoryAllocator.BlockSize, hi.symm,
        PerThreadMemoryAllocator.TARGET_BLOCK_SIZE]
    rw [List.foldlM_cons, hstep]
    exact ih hl

theorem init_poolHolds (hfresh : mmap.Fresh) :
    ∃ s, PerThreadMemoryAllocator.init mmap = some s ∧ PoolHolds s [] := by
  obtain ⟨q₀, hq₀, hholds, -⟩ := TwoLevel.holds_init (α := GlobalAllocator) vectorShape
  obtain ⟨ga, hga, hzero, -, -⟩ := GlobalAllocator.init_eq hfresh [] 4 true
  obtain ⟨q, hins, hq⟩ := TwoLevelVector.insert_eq hholds ga
  have hempty : Handed [] [] := ⟨.nil, by simp, by simp, .nil⟩
  refine ⟨⟨poolTable ⟨2048, ⟨q, none⟩, some false⟩, [ga.region]⟩, ?_, q, _, rfl, hq, rfl, hempty.add (by simp) hzero⟩
  have hfirst : PerThreadMemoryAllocator.initSize mmap
      ⟨⟨List.replicate defaultSize [], defaultSize, 0⟩, []⟩ 0 =
        some ⟨poolTable ⟨2048, ⟨q, none⟩, some false⟩, [ga.region]⟩ := by
    have hsize : PerThreadMemoryAllocator.BlockSize 0 = 2048 := rfl
    have htarget : PerThreadMemoryAllocator.TARGET_BLOCK_SIZE = 2048 := rfl
    have hspace : PerThreadMemoryAllocator.spaceNeeded 0 = 4 := rfl
    have hget : (poolTable ⟨2048, ⟨q, none⟩, none⟩).getIndexVal 2048 =
        some ⟨2048, ⟨q, none⟩, none⟩ := getIndexVal_poolTable rfl
    simp only [PerThreadMemoryAllocator.initSize, hsize, htarget, ne_eq, not_true, if_false, hq₀,
      hspace, hga, hins, insert_new, Option.bind_eq_bind, Option.bind_some, hget,
      setIndexVal_poolTable (b := ⟨2048, ⟨q, none⟩, none⟩) rfl]
    rfl
  have hrange : List.range 16 = 0 :: (List.range 15).map Nat.succ := List.range_succ_eq_map
  rw [PerThreadMemoryAllocator.init, show HashTableMemoryIndex.new =
    some ⟨List.replicate defaultSize [], defaultSize, 0⟩ from rfl, hrange]
  simp only [Option.bind_eq_bind, Option.bind_some, List.foldlM_cons]
  rw [hfirst]
  exact foldlM_initSize mmap (by simp) _

theorem allocate_poolHolds (hfresh : mmap.Fresh) {s : PerThreadMemoryAllocator}
    {blocks : List Region} (h : PoolHolds s blocks) :
    ∃ ptr s', s.Allocate mmap 2048 = some (ptr, s') ∧ PoolHolds s' (blocks ++ [⟨ptr, 2048⟩]) := by
  obtain ⟨q, gas, hblock, hq, hmapped, hgas⟩ := h
  obtain ⟨ptr, q', gas', hget, hq', hgas'⟩ :=
    TwoLevelVector.getBlock_spec hfresh hq hgas (show 2048 ≤ FOURMB by decide)
  refine ⟨ptr, ⟨poolTable ⟨2048, ⟨q', none⟩, some false⟩, gas'.map GlobalAllocator.region⟩, ?_,
    q', gas', rfl, hq', rfl, hgas'⟩
  rw [hmapped] at hget
  have hsize : 2048 ≤ SIXTEENMB := by decide
  simp [PerThreadMemoryAllocator.Allocate, hsize, hblock, getIndexVal_poolTable,
    PerThreadMemoryAllocator.fromRegions, hget, setIndexVal_poolTable]

/-- `n` calls of `Allocate` for one pooled block each, the pointers in the order of the calls. -/
def allocateTimes (mmap : Mmap) (s : PerThreadMemoryAllocator) :
    Nat → Option (List Nat × PerThreadMemoryAllocator)
  | 0 => some ([], s)
  | n + 1 => do
    let (ptrs, s) ← allocateTimes mmap s n
    let (ptr, s) ← s.Allocate mmap PerThreadMemoryAllocator.TARGET_BLOCK_SIZE
    return (ptrs ++ [ptr], s)

/-- The range of addresses of a pooled block. -/
def pooled (ptr : Nat) : Region := ⟨ptr, PerThreadMemoryAllocator.TARGET_BLOCK_SIZE⟩

theorem allocateTimes_poolHolds (hfresh : mmap.Fresh) {s : PerThreadMemoryAllocator}
    (h : PoolHolds s []) (n : Nat) :
    ∃ ptrs s', allocateTimes mmap s n = some (ptrs, s') ∧ ptrs.length = n ∧
      PoolHolds s' (ptrs.map pooled) := by
  induction n with
  | zero => exact ⟨[], s, rfl, rfl, h⟩
  | succ n ih =>
    obtain ⟨ptrs, s', hrun, hlen, hs'⟩ := ih
    obtain ⟨ptr, s'', halloc, hs''⟩ := allocate_poolHolds hfresh hs'
    refine ⟨ptrs ++ [ptr], s'', ?_, by simp [hlen], by rw [List.map_append]; exact hs''⟩
    simp only [allocateTimes, hrun, Option.bind_eq_bind, Option.bind_some]
    rw [show PerThreadMemoryAllocator.TARGET_BLOCK_SIZE = 2048 from rfl, halloc]
    rfl

/-- Any number of pooled blocks: no call leaves an array, each block lies in one mapped region, no
two overlap, and the vector of the pool holds every mapped region in order. -/
theorem Allocate_disjoint (hfresh : mmap.Fresh) (n : Nat) :
    ∃ ptrs s, ((PerThreadMemoryAllocator.init mmap).bind fun s => allocateTimes mmap s n) =
        some (ptrs, s) ∧
      ptrs.length = n ∧
      (∀ ptr ∈ ptrs, ∃ r ∈ s.mapped, (pooled ptr).Inside r) ∧
      (ptrs.map pooled).Pairwise Region.Disjoint ∧
      ∃ m gas, s.block.getIndexVal PerThreadMemoryAllocator.TARGET_BLOCK_SIZE = some m ∧
        TwoLevelVector.Contents m.freeBlock.memBlock gas ∧
        gas.map GlobalAllocator.region = s.mapped := by
  obtain ⟨s₀, hinit, hs₀⟩ := init_poolHolds hfresh
  obtain ⟨ptrs, s, hrun, hlen, q, gas, hblock, hq, hmapped, hgas⟩ :=
    allocateTimes_poolHolds hfresh hs₀ n
  refine ⟨ptrs, s, by simp [hinit, hrun], hlen, ?_, hgas.blocks, ⟨2048, ⟨q, none⟩, some false⟩,
    gas, ?_, hq, hmapped⟩
  · intro ptr hptr
    obtain ⟨r, hr, hin⟩ := hgas.mem_region (List.mem_map_of_mem hptr)
    exact ⟨r, hmapped ▸ hr, hin⟩
  · rw [hblock]
    exact getIndexVal_poolTable rfl

end Blocks

/-- Every mapping above all earlier ones. -/
def Mmap.upwards : Mmap := fun mapped _ => (mapped.map fun r => r.base + r.length).sum

theorem Mmap.fresh_upwards : Mmap.upwards.Fresh := fun _ _ _ hr =>
  .inl (List.le_sum_of_mem (List.mem_map_of_mem hr))

theorem Allocate_disjoint_three :
    ∃ ptrs s, ((PerThreadMemoryAllocator.init .upwards).bind fun s =>
        allocateTimes .upwards s 3) = some (ptrs, s) ∧
      ptrs.length = 3 ∧ (ptrs.map pooled).Pairwise Region.Disjoint := by
  obtain ⟨ptrs, s, hrun, hlen, -, hdis, -⟩ := Allocate_disjoint Mmap.fresh_upwards 3
  exact ⟨ptrs, s, hrun, hlen, hdis⟩

end AVBGraph.Memory
