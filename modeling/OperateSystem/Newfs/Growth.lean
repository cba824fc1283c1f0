import OperateSystem.Newfs.Operations

/-!
# What the operations leave alone

Between mount and unmount the device is only read.  The operations set bits in
the two bitmaps, append dentries, load inodes and change the contents of loaded
ones; nothing is ever taken back.  `Grows` states this once, and every
operation is shown to stay within it.
-/

namespace OperateSystem.Newfs

open OperateSystem.Bitmap
open OperateSystem.ByteStore

/-- Bitmaps only gain bits. -/
structure MapGrows (map map' : List Byte) : Prop where
  length_eq : map'.length = map.length
  bits : ∀ i, bit map i = true → bit map' i = true

theorem MapGrows.refl (map : List Byte) : MapGrows map map := ⟨rfl, fun _ h => h⟩

theorem MapGrows.trans {map map' map'' : List Byte} (h : MapGrows map map')
    (h' : MapGrows map' map'') : MapGrows map map'' :=
  ⟨h'.length_eq.trans h.length_eq, fun i hi => h'.bits i (h.bits i hi)⟩

theorem mapGrows_claimBit {map map' : List Byte} {c : ℕ} (h : claimBit map 0 = some (c, map')) :
    MapGrows map map' := by
  have hclaim := claimBit_some (by decide) h
  refine ⟨hclaim.length_eq, ?_⟩
  intro i hi
  rw [hclaim.bit_eq, hi]
  rfl

structure Super.Grows (super super' : Super) : Prop where
  rest : super' = { super with mapInode := super'.mapInode, mapData := super'.mapData }
  mapInode : MapGrows super.mapInode super'.mapInode
  mapData : MapGrows super.mapData super'.mapData

theorem Super.Grows.refl (super : Super) : super.Grows super :=
  ⟨rfl, MapGrows.refl _, MapGrows.refl _⟩

theorem Super.Grows.trans {super super' super'' : Super} (h : super.Grows super')
    (h' : super'.Grows super'') : super.Grows super'' := by
  refine ⟨?_, h.mapInode.trans h'.mapInode, h.mapData.trans h'.mapData⟩
  rw [h'.rest, h.rest]

/-- A dentry keeps its name, type and number, and its inode once loaded. -/
structure Dentry.Grows (dentry dentry' : Dentry) : Prop where
  fname : dentry'.fname = dentry.fname
  ftype : dentry'.ftype = dentry.ftype
  ino : dentry'.ino = dentry.ino
  inode : ∀ inode, dentry.inode = some inode →
    ∃ inode', dentry'.inode = some inode' ∧ inode'.ino = inode.ino

theorem Dentry.Grows.refl (dentry : Dentry) : dentry.Grows dentry :=
  ⟨rfl, rfl, rfl, fun inode h => ⟨inode, h, rfl⟩⟩

theorem Dentry.Grows.trans {dentry dentry' dentry'' : Dentry} (h : dentry.Grows dentry')
    (h' : dentry'.Grows dentry'') : dentry.Grows dentry'' := by
  refine ⟨h'.fname.trans h.fname, h'.ftype.trans h.ftype, h'.ino.trans h.ino, ?_⟩
  intro inode hinode
  obtain ⟨inode', hinode', hino⟩ := h.inode inode hinode
  obtain ⟨inode'', hinode'', hino'⟩ := h'.inode inode' hinode'
  exact ⟨inode'', hinode'', hino'.trans hino⟩

/-- Every dentry stays where it is. -/
def HeapGrows (heap heap' : List Dentry) : Prop :=
  ∀ (ptr : DentryPtr) (dentry : Dentry), heap[ptr]? = some dentry →
    ∃ dentry', heap'[ptr]? = some dentry' ∧ dentry.Grows dentry'

theorem HeapGrows.refl (heap : List Dentry) : HeapGrows heap heap :=
  fun _ dentry h => ⟨dentry, h, Dentry.Grows.refl dentry⟩

theorem HeapGrows.trans {heap heap' heap'' : List Dentry} (h : HeapGrows heap heap')
    (h' : HeapGrows heap' heap'') : HeapGrows heap heap'' := by
  intro ptr dentry hptr
  obtain ⟨dentry', hptr', hgrows⟩ := h ptr dentry hptr
  obtain ⟨dentry'', hptr'', hgrows'⟩ := h' ptr dentry' hptr'
  exact ⟨dentry'', hptr'', hgrows.trans hgrows'⟩

theorem heapGrows_append (heap more : List Dentry) : HeapGrows heap (heap ++ more) := by
  intro ptr dentry hptr
  refine ⟨dentry, ?_, Dentry.Grows.refl dentry⟩
  rw [List.getElem?_append_left (List.getElem?_eq_some_iff.mp hptr).1, hptr]

theorem heapGrows_set {heap : List Dentry} {ptr : DentryPtr} {dentry dentry' : Dentry}
    (hptr : heap[ptr]? = some dentry) (hgrows : dentry.Grows dentry') :
    HeapGrows heap (heap.set ptr dentry') := by
  intro other d hother
  by_cases heq : ptr = other
  · subst heq
    have hsame : d = dentry := Option.some.inj (hother.symm.trans hptr)
    subst hsame
    have hlt := (List.getElem?_eq_some_iff.mp hptr).1
    exact ⟨dentry', by simp [hlt], hgrows⟩
  · exact ⟨d, by rw [List.getElem?_set_ne heq, hother], Dentry.Grows.refl d⟩

/-- Storing a changed inode keeps the dentry, as long as the number stays. -/
theorem heapGrows_setInode {fs : Fs} {ptr : DentryPtr} {dentry : Dentry} {inode inode' : Inode}
    (hptr : fs.heap[ptr]? = some dentry) (hinode : dentry.inode = some inode)
    (hino : inode'.ino = inode.ino) :
    HeapGrows fs.heap (fs.setInode ptr dentry inode').heap := by
  apply heapGrows_set hptr
  refine ⟨rfl, rfl, rfl, ?_⟩
  intro old hold
  rw [hinode] at hold
  cases hold
  exact ⟨inode', rfl, hino⟩

theorem heap_setInode {fs : Fs} {ptr : DentryPtr} {dentry : Dentry}
    (hptr : fs.heap[ptr]? = some dentry) (inode : Inode) (other : DentryPtr) :
    (fs.setInode ptr dentry inode).heap[other]?
      = if ptr = other then some { dentry with inode := some inode } else fs.heap[other]? := by
  have hlt := (List.getElem?_eq_some_iff.mp hptr).1
  rw [Fs.setInode, List.getElem?_set]
  simp [hlt]

/-- The dentries after one has got an inode and another has been added. -/
theorem heap_setInode_append {fs : Fs} {ptr : DentryPtr} {dentry : Dentry}
    (hptr : fs.heap[ptr]? = some dentry) (inode : Inode) (added : Dentry) (other : DentryPtr) :
    ((fs.setInode ptr dentry inode).heap ++ [added])[other]?
      = if other = fs.heap.length then some added
        else if ptr = other then some { dentry with inode := some inode }
        else fs.heap[other]? := by
  have hlength : (fs.setInode ptr dentry inode).heap.length = fs.heap.length := by
    simp [Fs.setInode]
  rw [← heap_setInode hptr, ← hlength]
  rcases Nat.lt_trichotomy other (fs.setInode ptr dentry inode).heap.length with hlt | heq | hgt
  · rw [if_neg (Nat.ne_of_lt hlt), List.getElem?_append_left hlt]
  · rw [if_pos heq, heq, List.getElem?_concat_length]
  · rw [if_neg (Nat.ne_of_gt hgt), List.getElem?_eq_none_iff.mpr (Nat.le_of_lt hgt),
      List.getElem?_eq_none_iff.mpr (by simpa using Nat.succ_le_of_lt hgt)]

structure Fs.Grows (fs fs' : Fs) : Prop where
  disk : fs'.disk = fs.disk
  super : fs.super.Grows fs'.super
  heap : HeapGrows fs.heap fs'.heap

theorem Fs.Grows.refl (fs : Fs) : fs.Grows fs :=
  ⟨rfl, Super.Grows.refl _, HeapGrows.refl _⟩

theorem Fs.Grows.trans {fs fs' fs'' : Fs} (h : fs.Grows fs') (h' : fs'.Grows fs'') :
    fs.Grows fs'' :=
  ⟨h'.disk.trans h.disk, h.super.trans h'.super, h.heap.trans h'.heap⟩

section Allocation

theorem allocDentry_grows (blks : Int) (super : Super) (inode : Inode) (ptr : DentryPtr) :
    super.Grows (allocDentry blks super inode ptr).1 ∧
      (allocDentry blks super inode ptr).2.1.ino = inode.ino := by
  rw [allocDentry]
  cases hscan : (if needsDataBlock inode.size blks then claimBit super.mapData 0 else none) with
  | none => exact ⟨Super.Grows.refl super, rfl⟩
  | some claim =>
      obtain ⟨c, mapData⟩ := claim
      have hclaim : claimBit super.mapData 0 = some (c, mapData) := by
        split at hscan
        · exact hscan
        · simp at hscan
      have hsuper : super.Grows { super with mapData := mapData } :=
        ⟨rfl, MapGrows.refl _, mapGrows_claimBit hclaim⟩
      by_cases hlimit : (c : Int) = super.maxData
      · simpa [hscan, hlimit] using hsuper
      · simpa [hscan, hlimit] using hsuper

/-- Linking puts the new dentry in front, whatever else happens. -/
theorem allocDentry_dentrys (blks : Int) (super : Super) (inode : Inode) (ptr : DentryPtr) :
    (allocDentry blks super inode ptr).2.1.dentrys = ptr :: inode.dentrys := by
  rw [allocDentry]
  cases hscan : (if needsDataBlock inode.size blks then claimBit super.mapData 0 else none) with
  | none => rfl
  | some claim =>
      by_cases hlimit : (claim.1 : Int) = super.maxData <;> simp [hlimit]

/-- A dentry gets an inode without entries, or is left as it is. -/
theorem allocInode_dentry (blks : Int) (super : Super) (dentry : Dentry) (junk : Junk) :
    (allocInode blks super dentry junk).2 = dentry ∨
      ∃ (ino : ℕ) (data : List Byte), (allocInode blks super dentry junk).2
        = { dentry with ino := ino, inode := some ⟨ino, 0, 0, [], data⟩ } := by
  rw [allocInode]
  cases hclaim : claimBit super.mapInode 0 with
  | none => exact Or.inl rfl
  | some claim =>
      by_cases hlimit : (claim.1 : Int) = super.maxIno
      · simp [hlimit]
      · simp only [hlimit, if_false]
        exact Or.inr ⟨_, _, rfl⟩

theorem allocInode_grows (blks : Int) (super : Super) (dentry : Dentry) (junk : Junk) :
    super.Grows (allocInode blks super dentry junk).1 := by
  rw [allocInode]
  cases hclaim : claimBit super.mapInode 0 with
  | none => simpa using Super.Grows.refl super
  | some claim =>
      obtain ⟨c, mapInode⟩ := claim
      have hsuper : super.Grows { super with mapInode := mapInode } :=
        ⟨rfl, mapGrows_claimBit hclaim, MapGrows.refl _⟩
      by_cases hlimit : (c : Int) = super.maxIno
      · simpa [hlimit] using hsuper
      · simpa [hlimit] using hsuper

end Allocation

section Loading

/-- A new dentry has the given type and name, and no inode yet. -/
theorem newDentry_some {fname : List Byte} {ftype : FileType} {dentry : Dentry}
    (h : newDentry fname ftype = some dentry) :
    fname.length ≤ maxFileName ∧
      dentry = ⟨fname ++ List.replicate (maxFileName - fname.length) 0, ftype, -1, none⟩ := by
  rw [newDentry] at h
  split at h
  · rename_i hlen
    cases h
    exact ⟨hlen, rfl⟩
  · cases h

/-- One turn of the loop that loads the entries of a directory. -/
theorem readDentrys_succ {ino i : Int} {count : ℕ} {fs fs' : Fs} {inode inode' : Inode}
    (h : readDentrys ino (count + 1) i fs inode = some (fs', inode')) :
    ∃ bytes sub, driverRead fs.disk (daOfs ino + i * sizeofDentryD) sizeofDentryD = some bytes ∧
      newDentry (cstr (DentryD.decode bytes).fname) (DentryD.decode bytes).ftype = some sub ∧
      readDentrys ino count (i + 1)
        { fs with
          super := (allocDentry (blksSz fs.disk.szIo) fs.super inode fs.heap.length).1
          heap := fs.heap ++ [{ sub with ino := (DentryD.decode bytes).ino }] }
        (allocDentry (blksSz fs.disk.szIo) fs.super inode fs.heap.length).2.1
        = some (fs', inode') := by
  simp only [readDentrys, Option.bind_eq_bind] at h
  obtain ⟨bytes, hbytes, h⟩ := Option.bind_eq_some_iff.mp h
  obtain ⟨sub, hsub, h⟩ := Option.bind_eq_some_iff.mp h
  exact ⟨bytes, sub, hbytes, hsub, h⟩

theorem readDentrys_grows {ino : Int} {count : ℕ} {i : Int} {fs fs' : Fs}
    {inode inode' : Inode} (h : readDentrys ino count i fs inode = some (fs', inode')) :
    fs'.disk = fs.disk ∧ fs.super.Grows fs'.super ∧
      (∃ more, fs'.heap = fs.heap ++ more ∧ ∀ sub ∈ more, sub.inode = none) ∧
      inode'.ino = inode.ino := by
  induction count generalizing i fs inode with
  | zero =>
      cases h
      exact ⟨rfl, Super.Grows.refl _, ⟨[], by simp, by simp⟩, rfl⟩
  | succ count ih =>
      obtain ⟨bytes, sub, -, hsub, hrest⟩ := readDentrys_succ h
      obtain ⟨hdisk, hsuper, ⟨more, hmore, hnull⟩, hino⟩ := ih hrest
      obtain ⟨hsuper', hino'⟩ :=
        allocDentry_grows (blksSz fs.disk.szIo) fs.super inode fs.heap.length
      refine ⟨hdisk, hsuper'.trans hsuper,
        ⟨{ sub with ino := (DentryD.decode bytes).ino } :: more, ?_, ?_⟩, hino.trans hino'⟩
      · rw [hmore, List.append_assoc]
        rfl
      · intro sub' hsub'
        rcases List.mem_cons.mp hsub' with rfl | hmem
        · rw [(newDentry_some hsub).2]
        · exact hnull sub' hmem

/-- Loading reads the inode record, then the entries or the data. -/
theorem readInode_some {fs fs' : Fs} {ftype : FileType} {ino : Int} {inode : Inode}
    (h : readInode fs ftype ino = some (fs', inode)) :
    ∃ bytes, driverRead fs.disk (inoOfs ino) sizeofInodeD = some bytes ∧
      ((ftype = .dir ∧ readDentrys ino (InodeD.decode bytes).dirCnt.toNat 0 fs
          ⟨(InodeD.decode bytes).ino, (InodeD.decode bytes).size, 0, [], []⟩
          = some (fs', inode)) ∨
        (ftype = .file ∧ fs' = fs ∧ ∃ data,
          driverRead fs.disk (daOfs ino) (dataPerFile * blksSz fs.disk.szIo) = some data ∧
          inode = ⟨(InodeD.decode bytes).ino, (InodeD.decode bytes).size, 0, [], data⟩) ∨
        (ftype ≠ .dir ∧ ftype ≠ .file ∧ fs' = fs ∧
          inode = ⟨(InodeD.decode bytes).ino, (InodeD.decode bytes).size, 0, [], []⟩)) := by
  simp only [readInode, Option.bind_eq_bind] at h
  obtain ⟨bytes, hbytes, h⟩ := Option.bind_eq_some_iff.mp h
  refine ⟨bytes, hbytes, ?_⟩
  cases ftype with
  | dir => exact Or.inl ⟨rfl, h⟩
  | file =>
      obtain ⟨data, hdata, h⟩ := Option.bind_eq_some_iff.mp h
      cases h
      exact Or.inr (Or.inl ⟨rfl, rfl, data, hdata, rfl⟩)
  | symLink =>
      cases h
      exact Or.inr (Or.inr ⟨by simp, by simp, rfl, rfl⟩)
  | other raw =>
      cases h
      exact Or.inr (Or.inr ⟨by simp, by simp, rfl, rfl⟩)

theorem readInode_grows {fs fs' : Fs} {ftype : FileType} {ino : Int} {inode : Inode}
    (h : readInode fs ftype ino = some (fs', inode)) :
    fs'.disk = fs.disk ∧ fs.super.Grows fs'.super ∧ ∃ more, fs'.heap = fs.heap ++ more := by
  obtain ⟨bytes, -, ⟨-, hrest⟩ | ⟨-, rfl, -⟩ | ⟨-, -, rfl, -⟩⟩ := readInode_some h
  · obtain ⟨hdisk, hsuper, ⟨more, hmore, -⟩, -⟩ := readDentrys_grows hrest
    exact ⟨hdisk, hsuper, more, hmore⟩
  · exact ⟨rfl, Super.Grows.refl _, [], by simp⟩
  · exact ⟨rfl, Super.Grows.refl _, [], by simp⟩

/-- The dentries that loading adds have no inode yet. -/
theorem readInode_heap {fs fs' : Fs} {ftype : FileType} {ino : Int} {inode : Inode}
    (h : readInode fs ftype ino = some (fs', inode)) :
    ∃ more, fs'.heap = fs.heap ++ more ∧ ∀ sub ∈ more, sub.inode = none := by
  obtain ⟨bytes, -, ⟨-, hrest⟩ | ⟨-, rfl, -⟩ | ⟨-, -, rfl, -⟩⟩ := readInode_some h
  · exact (readDentrys_grows hrest).2.2.1
  · exact ⟨[], by simp, by simp⟩
  · exact ⟨[], by simp, by simp⟩

/-- Loading the inode of a dentry does nothing when it is loaded already. -/
theorem loadInode_some {fs fs' : Fs} {ptr : DentryPtr} (h : loadInode fs ptr = some fs') :
    ∃ dentry, fs.heap[ptr]? = some dentry ∧
      ((dentry.inode.isSome ∧ fs' = fs) ∨
        (dentry.inode = none ∧ ∃ fs₁ inode,
          readInode fs dentry.ftype dentry.ino = some (fs₁, inode) ∧
          fs' = fs₁.setInode ptr dentry inode)) := by
  simp only [loadInode, Option.bind_eq_bind] at h
  obtain ⟨dentry, hdentry, h⟩ := Option.bind_eq_some_iff.mp h
  refine ⟨dentry, hdentry, ?_⟩
  split at h
  · rename_i hloaded
    cases h
    exact Or.inl ⟨hloaded, rfl⟩
  · rename_i hnull
    obtain ⟨⟨fs₁, inode⟩, hread, h⟩ := Option.bind_eq_some_iff.mp h
    cases h
    exact Or.inr ⟨by simpa using hnull, fs₁, inode, hread, rfl⟩

theorem loadInode_grows {fs fs' : Fs} {ptr : DentryPtr} (h : loadInode fs ptr = some fs') :
    fs.Grows fs' := by
  obtain ⟨dentry, hdentry, ⟨-, rfl⟩ | ⟨hnull, fs₁, inode, hread, rfl⟩⟩ := loadInode_some h
  · exact Fs.Grows.refl fs'
  · obtain ⟨hdisk, hsuper, more, hmore⟩ := readInode_grows hread
    have hdentry₁ : fs₁.heap[ptr]? = some dentry := by
      rw [hmore, List.getElem?_append_left (List.getElem?_eq_some_iff.mp hdentry).1, hdentry]
    refine ⟨hdisk, hsuper, ?_⟩
    apply HeapGrows.trans (hmore ▸ heapGrows_append fs.heap more)
    apply heapGrows_set hdentry₁
    refine ⟨rfl, rfl, rfl, ?_⟩
    intro old hold
    rw [hnull] at hold
    cases hold

/-- A loaded inode is there afterwards. -/
theorem loadInode_loaded {fs fs' : Fs} {ptr : DentryPtr} (h : loadInode fs ptr = some fs') :
    ∃ dentry, fs'.heap[ptr]? = some dentry ∧ dentry.inode.isSome := by
  obtain ⟨dentry, hptr, ⟨hloaded, rfl⟩ | ⟨-, fs₁, inode, hread, rfl⟩⟩ := loadInode_some h
  · exact ⟨dentry, hptr, hloaded⟩
  · obtain ⟨-, -, more, hmore⟩ := readInode_grows hread
    have hptr₁ : fs₁.heap[ptr]? = some dentry := by
      rw [hmore, List.getElem?_append_left (List.getElem?_eq_some_iff.mp hptr).1, hptr]
    exact ⟨_, by rw [heap_setInode hptr₁, if_pos rfl], rfl⟩

/-- A lookup walks the loaded tree and loads the inode of its result. -/
theorem lookup_some {fs fs' : Fs} {path : List Byte} {found : Lookup}
    (h : lookup fs path = some (fs', found)) :
    lookupLoop fs.heap (calcLvl path) (tokens path) 0 fs.super.rootDentry
        (if calcLvl path = 0 then (some fs.super.rootDentry, some true) else (none, none))
        = some (some found.dentry, found.isFind) ∧
      loadInode fs found.dentry = some fs' ∧ found.isRoot = decide (calcLvl path = 0) := by
  simp only [lookup, Option.bind_eq_bind] at h
  obtain ⟨⟨ret, isFind⟩, hloop, h⟩ := Option.bind_eq_some_iff.mp h
  obtain ⟨dentry, hret, h⟩ := Option.bind_eq_some_iff.mp h
  obtain ⟨fs₁, hload, h⟩ := Option.bind_eq_some_iff.mp h
  cases h
  simp only at hret
  subst hret
  exact ⟨hloop, hload, rfl⟩

theorem lookup_grows {fs fs' : Fs} {path : List Byte} {found : Lookup}
    (h : lookup fs path = some (fs', found)) : fs.Grows fs' :=
  loadInode_grows (lookup_some h).2.1

end Loading

section Operations

/-- Creation allocates an inode, then links the new dentry. -/
theorem create_some {fs fs' : Fs} {lastDentry : DentryPtr} {dentry : Dentry} {junk : Junk}
    (h : create fs lastDentry dentry junk = some fs') :
    ∃ last lastInode, fs.heap[lastDentry]? = some last ∧ last.inode = some lastInode ∧
      ∃ super dentry' super' lastInode',
        allocInode (blksSz fs.disk.szIo) fs.super dentry junk = (super, dentry') ∧
        (∃ ret, allocDentry (blksSz fs.disk.szIo) super lastInode fs.heap.length
          = (super', lastInode', ret)) ∧
        fs' = { fs.setInode lastDentry last lastInode' with
          super := super'
          heap := (fs.setInode lastDentry last lastInode').heap ++ [dentry'] } := by
  simp only [create, Option.bind_eq_bind] at h
  obtain ⟨last, hlast, h⟩ := Option.bind_eq_some_iff.mp h
  obtain ⟨lastInode, hinode, h⟩ := Option.bind_eq_some_iff.mp h
  cases h
  exact ⟨last, lastInode, hlast, hinode, _, _, _, _, rfl, ⟨_, rfl⟩, rfl⟩

theorem create_grows {fs fs' : Fs} {lastDentry : DentryPtr} {dentry : Dentry} {junk : Junk}
    (h : create fs lastDentry dentry junk = some fs') : fs.Grows fs' := by
  obtain ⟨last, lastInode, hlast, hinode, super, dentry', super', lastInode', hallocInode,
    ⟨ret, hallocDentry⟩, rfl⟩ := create_some h
  have hsuper := allocInode_grows (blksSz fs.disk.szIo) fs.super dentry junk
  have hlink := allocDentry_grows (blksSz fs.disk.szIo) super lastInode fs.heap.length
  rw [hallocInode] at hsuper
  rw [hallocDentry] at hlink
  refine ⟨rfl, hsuper.trans hlink.1, ?_⟩
  exact (heapGrows_setInode hlast hinode hlink.2).trans (heapGrows_append _ _)

/-- Every inode in memory has the property. -/
def Each (P : FileType → Inode → Prop) (fs : Fs) : Prop :=
  ∀ (ptr : DentryPtr) (dentry : Dentry) (inode : Inode), fs.heap[ptr]? = some dentry →
    dentry.inode = some inode → P dentry.ftype inode

theorem Each.setInode {P : FileType → Inode → Prop} {fs : Fs} (h : Each P fs) {ptr : DentryPtr}
    {dentry : Dentry} {inode : Inode} (hptr : fs.heap[ptr]? = some dentry)
    (hinode : P dentry.ftype inode) : Each P (fs.setInode ptr dentry inode) := by
  intro other d i hother hi
  rw [heap_setInode hptr] at hother
  split at hother
  · cases hother
    cases hi
    exact hinode
  · exact h other d i hother hi

theorem Each.append {P : FileType → Inode → Prop} {fs fs' : Fs} (h : Each P fs)
    {more : List Dentry} (hheap : fs'.heap = fs.heap ++ more)
    (hnull : ∀ sub ∈ more, sub.inode = none) : Each P fs' := by
  intro ptr dentry inode hptr hinode
  rw [hheap] at hptr
  by_cases hlt : ptr < fs.heap.length
  · rw [List.getElem?_append_left hlt] at hptr
    exact h ptr dentry inode hptr hinode
  · rw [List.getElem?_append_right (not_lt.mp hlt)] at hptr
    rw [hnull dentry (List.mem_of_getElem? hptr)] at hinode
    cases hinode

/-- A property of every inode that can be read survives the end of a lookup. -/
theorem Each.load {P : FileType → Inode → Prop} {fs fs' : Fs} (h : Each P fs) {ptr : DentryPtr}
    (hread : ∀ dentry fs₁ inode, fs.heap[ptr]? = some dentry → dentry.inode = none →
      readInode fs dentry.ftype dentry.ino = some (fs₁, inode) → P dentry.ftype inode)
    (hload : loadInode fs ptr = some fs') : Each P fs' := by
  obtain ⟨dentry, hptr, ⟨-, rfl⟩ | ⟨hnull, fs₁, inode, hinode, rfl⟩⟩ := loadInode_some hload
  · exact h
  · obtain ⟨more, hmore, hnone⟩ := readInode_heap hinode
    have hptr₁ : fs₁.heap[ptr]? = some dentry := by
      rw [hmore, List.getElem?_append_left (List.getElem?_eq_some_iff.mp hptr).1, hptr]
    exact (h.append hmore hnone).setInode hptr₁ (hread dentry fs₁ inode hptr hnull hinode)

/-- Allocating an inode leaves the data bitmap alone. -/
theorem allocInode_mapData (blks : Int) (super : Super) (dentry : Dentry) (junk : Junk) :
    (allocInode blks super dentry junk).1.mapData = super.mapData ∧
      (allocInode blks super dentry junk).1.maxData = super.maxData := by
  rw [allocInode]
  cases claimBit super.mapInode 0 with
  | none => exact ⟨rfl, rfl⟩
  | some claim =>
      by_cases hlimit : (claim.1 : Int) = super.maxIno <;> simp [hlimit]

/-- A property of the empty inode that linking an entry keeps survives a creation. -/
theorem Each.create {P : FileType → Inode → Prop} {fs fs' : Fs} (h : Each P fs)
    {ptr : DentryPtr} {dentry : Dentry} {junk : Junk} (hnull : dentry.inode = none)
    (hempty : ∀ (ino : ℕ) data, P dentry.ftype ⟨ino, 0, 0, [], data⟩)
    (hlinked : ∀ last inode super, fs.heap[ptr]? = some last → last.inode = some inode →
      super.mapData = fs.super.mapData → super.maxData = fs.super.maxData → P last.ftype inode →
      P last.ftype (allocDentry (blksSz fs.disk.szIo) super inode fs.heap.length).2.1)
    (hcreate : Newfs.create fs ptr dentry junk = some fs') : Each P fs' := by
  obtain ⟨last, lastInode, hlast, hinode, super, added, super', linked, halloc,
    ⟨ret, hlink⟩, rfl⟩ :=
    create_some hcreate
  have hadded := allocInode_dentry (blksSz fs.disk.szIo) fs.super dentry junk
  have hmap := allocInode_mapData (blksSz fs.disk.szIo) fs.super dentry junk
  rw [halloc] at hadded hmap
  intro other d i hother hi
  simp only at hother
  rw [heap_setInode_append hlast] at hother
  split at hother
  · cases hother
    rcases hadded with rfl | ⟨ino, data, rfl⟩
    · rw [hnull] at hi
      cases hi
    · cases hi
      exact hempty ino data
  · split at hother
    · cases hother
      cases hi
      have hafter := hlinked last lastInode super hlast hinode hmap.1 hmap.2
        (h ptr last lastInode hlast hinode)
      rwa [hlink] at hafter
    · exact h other d i hother hi

/-- `newfs_mkdir` looks the path up and, when nothing was found, creates. -/
theorem mkdir_some {fs fs' : Fs} {path : List Byte} {junk : Junk} {ret : Int}
    (h : mkdir fs path junk = some (fs', ret)) :
    ∃ fs₁ found, lookup fs path = some (fs₁, found) ∧
      ((found.isFind = some true ∧ fs' = fs₁ ∧ ret = -errorExists) ∨
        (found.isFind = some false ∧ ∃ last, fs₁.heap[found.dentry]? = some last ∧
          ((last.ftype = .file ∧ fs' = fs₁ ∧ ret = -errorUnsupported) ∨
            (last.ftype ≠ .file ∧ ret = 0 ∧ ∃ fname dentry, getFname path = some fname ∧
              newDentry fname .dir = some dentry ∧
              create fs₁ found.dentry dentry junk = some fs')))) := by
  simp only [mkdir, Option.bind_eq_bind] at h
  obtain ⟨⟨fs₁, found⟩, hlookup, h⟩ := Option.bind_eq_some_iff.mp h
  obtain ⟨isFind, hfind, h⟩ := Option.bind_eq_some_iff.mp h
  refine ⟨fs₁, found, hlookup, ?_⟩
  cases isFind with
  | true =>
      cases h
      exact Or.inl ⟨hfind, rfl, rfl⟩
  | false =>
      rw [if_neg (by simp)] at h
      obtain ⟨last, hlast, h⟩ := Option.bind_eq_some_iff.mp h
      refine Or.inr ⟨hfind, last, hlast, ?_⟩
      split at h
      · rename_i hfile
        cases h
        exact Or.inl ⟨hfile, rfl, rfl⟩
      · rename_i hfile
        obtain ⟨fname, hfname, h⟩ := Option.bind_eq_some_iff.mp h
        obtain ⟨dentry, hdentry, h⟩ := Option.bind_eq_some_iff.mp h
        obtain ⟨fs₂, hcreate, h⟩ := Option.bind_eq_some_iff.mp h
        cases h
        exact Or.inr ⟨hfile, rfl, fname, dentry, hfname, hdentry, hcreate⟩

/-- `newfs_mknod` looks the path up and, when nothing was found, creates. -/
theorem mknod_some {fs fs' : Fs} {path : List Byte} {mode : Mode} {junk : Junk} {ret : Int}
    (h : mknod fs path mode junk = some (fs', ret)) :
    ∃ fs₁ found, lookup fs path = some (fs₁, found) ∧
      ((found.isFind = some true ∧ fs' = fs₁ ∧ ret = -errorExists) ∨
        (found.isFind = some false ∧ ret = 0 ∧ ∃ fname ftype dentry,
          getFname path = some fname ∧ mode.fileType = some ftype ∧
          newDentry fname ftype = some dentry ∧
          create fs₁ found.dentry dentry junk = some fs')) := by
  simp only [mknod, Option.bind_eq_bind] at h
  obtain ⟨⟨fs₁, found⟩, hlookup, h⟩ := Option.bind_eq_some_iff.mp h
  obtain ⟨isFind, hfind, h⟩ := Option.bind_eq_some_iff.mp h
  refine ⟨fs₁, found, hlookup, ?_⟩
  cases isFind with
  | true =>
      cases h
      exact Or.inl ⟨hfind, rfl, rfl⟩
  | false =>
      rw [if_neg (by simp)] at h
      obtain ⟨fname, hfname, h⟩ := Option.bind_eq_some_iff.mp h
      obtain ⟨ftype, hftype, h⟩ := Option.bind_eq_some_iff.mp h
      obtain ⟨dentry, hdentry, h⟩ := Option.bind_eq_some_iff.mp h
      obtain ⟨fs₂, hcreate, h⟩ := Option.bind_eq_some_iff.mp h
      cases h
      exact Or.inr ⟨hfind, rfl, fname, ftype, dentry, hfname, hftype, hdentry, hcreate⟩

/-- `newfs_write` looks the path up and changes the data of a loaded file, or
nothing. -/
theorem write_some {fs fs' : Fs} {path buf : List Byte} {offset ret : Int}
    (h : write fs path buf offset = some (fs', ret)) :
    ∃ fs₁ found, lookup fs path = some (fs₁, found) ∧
      (fs' = fs₁ ∨ found.isFind = some true ∧ ∃ dentry inode,
        fs₁.heap[found.dentry]? = some dentry ∧
        dentry.inode = some inode ∧ dentry.ftype ≠ .dir ∧ offset ≤ inode.size ∧ 0 ≤ offset ∧
        offset + buf.length ≤ inode.data.length ∧
        fs' = fs₁.setInode found.dentry dentry (inode.overlay buf offset)) := by
  simp only [write, Option.bind_eq_bind] at h
  obtain ⟨⟨fs₁, found⟩, hlookup, h⟩ := Option.bind_eq_some_iff.mp h
  obtain ⟨isFind, hfind, h⟩ := Option.bind_eq_some_iff.mp h
  refine ⟨fs₁, found, hlookup, ?_⟩
  cases isFind with
  | false =>
      cases h
      exact Or.inl rfl
  | true =>
      rw [if_neg (by simp)] at h
      obtain ⟨dentry, hdentry, h⟩ := Option.bind_eq_some_iff.mp h
      obtain ⟨inode, hinode, h⟩ := Option.bind_eq_some_iff.mp h
      split at h
      · cases h
        exact Or.inl rfl
      · rename_i hdir
        split at h
        · cases h
          exact Or.inl rfl
        · rename_i hseek
          split at h
          · rename_i hfit
            cases h
            exact Or.inr ⟨hfind, dentry, inode, hdentry, hinode, hdir, not_lt.mp hseek, hfit.1,
              hfit.2, rfl⟩
          · cases h

/-- The new size after a write. -/
theorem overlay_size (inode : Inode) (buf : List Byte) (offset : Int) :
    (inode.overlay buf offset).size = max inode.size (offset + buf.length) := by
  simp only [Inode.overlay]
  split <;> omega

/-- It does change the data when the path leads to a file and the offset is not past its
end. -/
theorem write_overlays {fs fs₁ fs' : Fs} {path buf : List Byte} {offset ret : Int}
    {found : Lookup} {dentry : Dentry} {inode : Inode}
    (hlookup : lookup fs path = some (fs₁, found)) (hfind : found.isFind = some true)
    (hdentry : fs₁.heap[found.dentry]? = some dentry) (hinode : dentry.inode = some inode)
    (hfile : dentry.ftype ≠ .dir) (hseek : offset ≤ inode.size)
    (h : write fs path buf offset = some (fs', ret)) :
    0 ≤ offset ∧ fs' = fs₁.setInode found.dentry dentry (inode.overlay buf offset) := by
  simp only [write, hlookup, hfind, hdentry, hinode, hfile, not_lt.mpr hseek, Option.bind_eq_bind,
    Option.bind_some, Bool.true_eq_false, if_false] at h
  split at h
  · rename_i hfit
    cases h
    exact ⟨hfit.1, rfl⟩
  · cases h

theorem mkdir_grows {fs fs' : Fs} {path : List Byte} {junk : Junk} {ret : Int}
    (h : mkdir fs path junk = some (fs', ret)) : fs.Grows fs' := by
  obtain ⟨fs₁, found, hlookup, ⟨-, rfl, -⟩ | ⟨-, last, -, ⟨-, rfl, -⟩ | ⟨-, -, fname, dentry, -, -,
    hcreate⟩⟩⟩ := mkdir_some h
  · exact lookup_grows hlookup
  · exact lookup_grows hlookup
  · exact (lookup_grows hlookup).trans (create_grows hcreate)

theorem mknod_grows {fs fs' : Fs} {path : List Byte} {mode : Mode} {junk : Junk} {ret : Int}
    (h : mknod fs path mode junk = some (fs', ret)) : fs.Grows fs' := by
  obtain ⟨fs₁, found, hlookup, ⟨-, rfl, -⟩ | ⟨-, -, fname, ftype, dentry, -, -, -, hcreate⟩⟩ :=
    mknod_some h
  · exact lookup_grows hlookup
  · exact (lookup_grows hlookup).trans (create_grows hcreate)

theorem write_grows {fs fs' : Fs} {path buf : List Byte} {offset ret : Int}
    (h : write fs path buf offset = some (fs', ret)) : fs.Grows fs' := by
  obtain ⟨fs₁, found, hlookup, rfl | ⟨-, dentry, inode, hdentry, hinode, -, -, -, -, rfl⟩⟩ :=
    write_some h
  · exact lookup_grows hlookup
  · apply (lookup_grows hlookup).trans
    exact ⟨rfl, Super.Grows.refl _, heapGrows_setInode hdentry hinode rfl⟩

end Operations

end OperateSystem.Newfs
