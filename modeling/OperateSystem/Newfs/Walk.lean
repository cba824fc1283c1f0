import OperateSystem.Newfs.Lookup

/-!
# The way a lookup takes

`newfs_lookup` can only go on at a directory whose inode is in memory.  There it
takes the first entry that begins with the component, or stops when there is
none.  `Walk` and `Stops` describe the two ways it comes to an end with both
results assigned; in every other case a null pointer is dereferenced or
`*is_find` is left unassigned.
-/

namespace OperateSystem.Newfs

/-- `ptr` is a directory whose inode is in memory. -/
def Open (heap : List Dentry) (ptr : DentryPtr) (inode : Inode) : Prop :=
  ∃ dentry, heap[ptr]? = some dentry ∧ dentry.ftype = .dir ∧ dentry.inode = some inode

/-- From open directory to open directory each component finds an entry; the last
one found is `last`. -/
inductive Walk (heap : List Dentry) : DentryPtr → List (List Byte) → DentryPtr → Prop
  | nil (ptr : DentryPtr) : Walk heap ptr [] ptr
  | cons {ptr hit last : DentryPtr} {inode : Inode} {name : List Byte}
      {comps : List (List Byte)} (hopen : Open heap ptr inode)
      (hhit : findHit heap name inode.dentrys = some hit) (hrest : Walk heap hit comps last) :
      Walk heap ptr (name :: comps) last

/-- From open directory to open directory, until a component finds no entry in
`last`. -/
inductive Stops (heap : List Dentry) : DentryPtr → List (List Byte) → DentryPtr → Prop
  | here {ptr : DentryPtr} {inode : Inode} {name : List Byte} {comps : List (List Byte)}
      (hopen : Open heap ptr inode) (hmiss : findHit heap name inode.dentrys = none) :
      Stops heap ptr (name :: comps) ptr
  | cons {ptr hit last : DentryPtr} {inode : Inode} {name : List Byte}
      {comps : List (List Byte)} (hopen : Open heap ptr inode)
      (hhit : findHit heap name inode.dentrys = some hit) (hrest : Stops heap hit comps last) :
      Stops heap ptr (name :: comps) last

section Ways

variable {heap : List Dentry} {ptr last : DentryPtr} {comps : List (List Byte)}

theorem Open.of_dentry {inode : Inode} {dentry : Dentry} (h : Open heap ptr inode)
    (hptr : heap[ptr]? = some dentry) : dentry.ftype = .dir ∧ dentry.inode = some inode := by
  obtain ⟨dentry', hptr', hdir, hinode⟩ := h
  rw [hptr] at hptr'
  cases hptr'
  exact ⟨hdir, hinode⟩

theorem Open.unique {inode inode' : Inode} (h : Open heap ptr inode)
    (h' : Open heap ptr inode') : inode = inode' := by
  obtain ⟨dentry, hptr, -, hinode⟩ := h
  exact Option.some.inj (hinode.symm.trans (h'.of_dentry hptr).2)

/-- A walk that stops right after it has come to its end. -/
theorem Walk.stops {inode : Inode} {name : List Byte} {rest : List (List Byte)}
    (h : Walk heap ptr comps last) (hopen : Open heap last inode)
    (hmiss : findHit heap name inode.dentrys = none) :
    Stops heap ptr (comps ++ name :: rest) last := by
  induction h with
  | nil ptr => exact .here hopen hmiss
  | cons hopen' hhit' _ ih => exact .cons hopen' hhit' (ih hopen)

/-- A walk that stops has come to an open directory in which the next component
finds nothing. -/
theorem Stops.exists_walk (h : Stops heap ptr comps last) :
    ∃ before name rest inode, comps = before ++ name :: rest ∧ Walk heap ptr before last ∧
      Open heap last inode ∧ findHit heap name inode.dentrys = none := by
  induction h with
  | @here ptr inode name comps hopen hmiss =>
      exact ⟨[], name, comps, inode, rfl, .nil ptr, hopen, hmiss⟩
  | @cons ptr hit last inode name comps hopen hhit _ ih =>
      obtain ⟨before, next, rest, inode', rfl, hwalk, hopen', hmiss⟩ := ih
      exact ⟨name :: before, next, rest, inode', rfl, .cons hopen hhit hwalk, hopen', hmiss⟩

/-- A dentry that a component has found exists. -/
theorem Walk.exists_dentry (h : Walk heap ptr comps last) {start : Dentry}
    (hstart : heap[ptr]? = some start) : ∃ dentry, heap[last]? = some dentry := by
  induction h generalizing start with
  | nil ptr => exact ⟨start, hstart⟩
  | cons _ hhit _ ih =>
      obtain ⟨sub, -, -, hsub, -⟩ := findHit_some hhit
      exact ih hsub

end Ways

section Loop

variable {heap : List Dentry} {ptr last : DentryPtr} {comps : List (List Byte)} {lvl : ℕ}

theorem lookupLoop_open {totalLvl : ℕ} {fname : List Byte} {inode : Inode}
    {acc : Option DentryPtr × Option Bool} (hopen : Open heap ptr inode) :
    lookupLoop heap totalLvl (fname :: comps) lvl ptr acc =
      match findHit heap fname inode.dentrys with
      | none => some (some ptr, some false)
      | some hit =>
          if lvl + 1 = totalLvl then some (some hit, some true)
          else lookupLoop heap totalLvl comps (lvl + 1) hit acc := by
  obtain ⟨dentry, hptr, hdir, hinode⟩ := hopen
  exact lookupLoop_dir hptr hinode hdir

/-- At anything but an open directory the two results are never both assigned. -/
theorem lookupLoop_shut {totalLvl : ℕ} (hshut : ∀ inode, ¬ Open heap ptr inode)
    {isFind : Bool} :
    lookupLoop heap totalLvl comps lvl ptr (none, none) ≠ some (some last, some isFind) := by
  induction comps generalizing lvl with
  | nil => simp [lookupLoop]
  | cons fname comps ih =>
      intro h
      simp only [lookupLoop, Option.bind_eq_bind] at h
      obtain ⟨dentry, hptr, h⟩ := Option.bind_eq_some_iff.mp h
      obtain ⟨inode, hinode, h⟩ := Option.bind_eq_some_iff.mp h
      split at h
      · cases h
      · split at h
        · rename_i hdir
          exact hshut inode ⟨dentry, hptr, hdir, hinode⟩
        · exact ih h

/-- The lookup finds an entry just when every component finds one. -/
theorem lookupLoop_find_iff (hne : comps ≠ []) :
    lookupLoop heap (lvl + comps.length) comps lvl ptr (none, none)
      = some (some last, some true) ↔ Walk heap ptr comps last := by
  induction comps generalizing lvl ptr with
  | nil => exact absurd rfl hne
  | cons fname comps ih =>
      by_cases hopen : ∃ inode, Open heap ptr inode
      · obtain ⟨inode, hopen⟩ := hopen
        rw [lookupLoop_open hopen]
        cases hfind : findHit heap fname inode.dentrys with
        | none =>
            simp only [Option.some.injEq, Prod.mk.injEq, Bool.false_eq_true, and_false,
              false_iff]
            intro hwalk
            cases hwalk with
            | cons hopen' hhit _ =>
                rw [hopen'.unique hopen, hfind] at hhit
                cases hhit
        | some hit =>
            have hstep : Walk heap ptr (fname :: comps) last ↔ Walk heap hit comps last := by
              refine ⟨?_, fun hwalk => .cons hopen hfind hwalk⟩
              intro hwalk
              cases hwalk with
              | cons hopen' hhit hrest =>
                  rw [hopen'.unique hopen, hfind] at hhit
                  cases hhit
                  exact hrest
            rw [hstep]
            cases comps with
            | nil =>
                simp only [List.length_singleton, if_true, Option.some.injEq, Prod.mk.injEq,
                  and_true]
                refine ⟨fun heq => heq ▸ .nil hit, ?_⟩
                intro hwalk
                cases hwalk
                rfl
            | cons next comps =>
                have hlvl : lvl + (fname :: next :: comps).length
                    = lvl + 1 + (next :: comps).length := by
                  simp only [List.length_cons]
                  omega
                have hnot : lvl + 1 ≠ lvl + 1 + (next :: comps).length := by simp
                rw [hlvl]
                simp only [hnot, if_false]
                exact ih (by simp)
      · refine iff_of_false ?_ ?_
        · exact lookupLoop_shut fun inode h => hopen ⟨inode, h⟩
        · intro hwalk
          cases hwalk with
          | cons hopen' _ _ => exact hopen ⟨_, hopen'⟩

/-- The lookup reports that there is no entry just when it stops at a component. -/
theorem lookupLoop_miss_iff :
    lookupLoop heap (lvl + comps.length) comps lvl ptr (none, none)
      = some (some last, some false) ↔ Stops heap ptr comps last := by
  induction comps generalizing lvl ptr with
  | nil =>
      refine iff_of_false (by simp [lookupLoop]) ?_
      intro hstops
      cases hstops
  | cons fname comps ih =>
      by_cases hopen : ∃ inode, Open heap ptr inode
      · obtain ⟨inode, hopen⟩ := hopen
        rw [lookupLoop_open hopen]
        cases hfind : findHit heap fname inode.dentrys with
        | none =>
            simp only [Option.some.injEq, Prod.mk.injEq, and_true]
            refine ⟨fun heq => heq ▸ .here hopen hfind, ?_⟩
            intro hstops
            cases hstops with
            | here _ _ => rfl
            | cons hopen' hhit _ =>
                rw [hopen'.unique hopen, hfind] at hhit
                cases hhit
        | some hit =>
            have hstep : Stops heap ptr (fname :: comps) last ↔ Stops heap hit comps last := by
              refine ⟨?_, fun hstops => .cons hopen hfind hstops⟩
              intro hstops
              cases hstops with
              | here hopen' hmiss =>
                  rw [hopen'.unique hopen, hfind] at hmiss
                  cases hmiss
              | cons hopen' hhit hrest =>
                  rw [hopen'.unique hopen, hfind] at hhit
                  cases hhit
                  exact hrest
            have hlvl : lvl + (fname :: comps).length = lvl + 1 + comps.length := by
              simp only [List.length_cons]
              omega
            rw [hstep, hlvl, ← @ih hit (lvl + 1)]
            cases comps with
            | nil => simp [lookupLoop]
            | cons next comps =>
                have hnot : lvl + 1 ≠ lvl + 1 + (next :: comps).length := by simp
                simp only [hnot, if_false]
      · refine iff_of_false ?_ ?_
        · exact lookupLoop_shut fun inode h => hopen ⟨inode, h⟩
        · intro hstops
          cases hstops with
          | here hopen' _ => exact hopen ⟨_, hopen'⟩
          | cons hopen' _ _ => exact hopen ⟨_, hopen'⟩

/-- A component that finds nothing was looked for in an open directory. -/
theorem lookupLoop_miss_open {totalLvl : ℕ} {ret : Option DentryPtr}
    {acc : Option DentryPtr × Option Bool} (hacc : acc.2 ≠ some false)
    (h : lookupLoop heap totalLvl comps lvl ptr acc = some (ret, some false)) :
    ∃ last inode, ret = some last ∧ Open heap last inode := by
  induction comps generalizing lvl ptr with
  | nil =>
      simp only [lookupLoop, Option.some.injEq] at h
      exact absurd (congrArg Prod.snd h) hacc
  | cons fname comps ih =>
      simp only [lookupLoop, Option.bind_eq_bind] at h
      obtain ⟨dentry, hptr, h⟩ := Option.bind_eq_some_iff.mp h
      obtain ⟨inode, hinode, h⟩ := Option.bind_eq_some_iff.mp h
      split at h
      · simp only [Option.pure_def, Option.some.injEq, Prod.mk.injEq] at h
        exact absurd h.2 hacc
      · split at h
        · rename_i hdir
          split at h
          · cases h
            exact ⟨ptr, inode, rfl, dentry, hptr, hdir, hinode⟩
          · split at h
            · cases h
            · exact ih h
        · exact ih h

end Loop

/-- Loading the inode of an open directory changes nothing. -/
theorem Open.loadInode {fs : Fs} {ptr : DentryPtr} {inode : Inode} (h : Open fs.heap ptr inode) :
    Newfs.loadInode fs ptr = some fs := by
  obtain ⟨dentry, hptr, -, hinode⟩ := h
  rw [Newfs.loadInode, hptr, Option.bind_eq_bind, Option.bind_some, hinode]
  rfl

/-- A lookup of any string that finds nothing ends in an open directory and changes
nothing. -/
theorem lookup_miss {fs fs' : Fs} {path : List Byte} {found : Lookup}
    (h : lookup fs path = some (fs', found)) (hmiss : found.isFind = some false) :
    fs' = fs ∧ ∃ inode, Open fs.heap found.dentry inode := by
  obtain ⟨hloop, hload, -⟩ := lookup_some h
  rw [hmiss] at hloop
  have hacc : (if calcLvl path = 0 then (some fs.super.rootDentry, some true)
      else (none, none)).2 ≠ some false := by
    split <;> simp
  obtain ⟨last, inode, hlast, hopen⟩ := lookupLoop_miss_open hacc hloop
  cases hlast
  rw [hopen.loadInode] at hload
  exact ⟨(Option.some.inj hload).symm, inode, hopen⟩

section Lookup

variable {fs fs' : Fs} {comps : List (List Byte)} {last : DentryPtr}
  (hroot : fs.super.rootDentry = 0) (hvalid : ValidPath comps) (hne : comps ≠ [])

include hroot hvalid hne

theorem lookup_of_walk (hwalk : Walk fs.heap 0 comps last) (hload : loadInode fs last = some fs') :
    lookup fs (pathOf comps) = some (fs', ⟨last, some true, false⟩) := by
  have hloop := (@lookupLoop_find_iff fs.heap 0 last comps 0 hne).mpr hwalk
  rw [Nat.zero_add] at hloop
  rw [lookup_pathOf hroot hvalid hne, hloop]
  simp [hload]

theorem lookup_of_stops (hstops : Stops fs.heap 0 comps last)
    (hload : loadInode fs last = some fs') :
    lookup fs (pathOf comps) = some (fs', ⟨last, some false, false⟩) := by
  have hloop := (@lookupLoop_miss_iff fs.heap 0 last comps 0).mpr hstops
  rw [Nat.zero_add] at hloop
  rw [lookup_pathOf hroot hvalid hne, hloop]
  simp [hload]

/-- A lookup that assigns `*is_find` has walked to its result or stopped there, and
has loaded the inode. -/
theorem lookup_way {found : Lookup} (h : lookup fs (pathOf comps) = some (fs', found))
    {isFind : Bool} (hfind : found.isFind = some isFind) :
    loadInode fs found.dentry = some fs' ∧
      ((isFind = true ∧ Walk fs.heap 0 comps found.dentry) ∨
        (isFind = false ∧ Stops fs.heap 0 comps found.dentry)) := by
  rw [lookup_pathOf hroot hvalid hne] at h
  obtain ⟨⟨ret, find⟩, hloop, h⟩ := Option.bind_eq_some_iff.mp h
  obtain ⟨ptr, hret, h⟩ := Option.bind_eq_some_iff.mp h
  obtain ⟨fs₁, hload, h⟩ := Option.map_eq_some_iff.mp h
  cases h
  simp only at hret hfind hloop ⊢
  subst hret hfind
  refine ⟨hload, ?_⟩
  cases isFind with
  | true => exact Or.inl ⟨rfl, (@lookupLoop_find_iff _ _ _ _ 0 hne).mp (by simpa using hloop)⟩
  | false => exact Or.inr ⟨rfl, (@lookupLoop_miss_iff _ _ _ _ 0).mp (by simpa using hloop)⟩

end Lookup

end OperateSystem.Newfs
