import Mathlib.Data.BitVec
import Mathlib.Data.List.Perm.Basic
import OperateSystem.Core.ByteStore
import OperateSystem.Core.Terminated

/-!
# `find`

`find.c`: a directory is opened and its entries are read one after the other.  The name of
each is put behind the path in a buffer of the call, which is what `stat` gets and what is
printed; what is compared with the name that is looked for is the field of the entry, which
has no terminator when the name is `DIRSIZ` bytes long.

`open`, `read` and `stat` are not part of the sources, and `DIRSIZ` comes from a header; they
are parameters.  A path is a NUL-free byte string.
-/

namespace OperateSystem.Find

open OperateSystem.ByteStore OperateSystem.Terminated

abbrev Byte := BitVec 8

def nul : Byte := 0
def dot : Byte := 46
def slash : Byte := 47

/-- `sizeof buf`. -/
def bufSize : ℕ := 512

/-- `struct dirent`. -/
structure Dirent (dirsiz : ℕ) where
  inum : BitVec 16
  name : List Byte
  length_name : name.length = dirsiz

/-- The values of `st.type`. -/
inductive FileType
  | dir
  | file
  | device
  deriving DecidableEq

/-- What the kernel answers: the entries that can be read after `open(path, 0)`, and the type
that `stat(path, &st)` stores. -/
structure Kernel (dirsiz : ℕ) where
  opened : List Byte → Option (List (Dirent dirsiz))
  stat : List Byte → Option FileType

/-- A line that is printed. -/
inductive Line
  | found (path : List Byte)
  | cannotOpen (path : List Byte)
  | tooLong
  | cannotStat (path : List Byte)
  deriving DecidableEq

/-- What the stack holds that `find` has not stored: the first contents of the buffer of a
call, and the bytes behind `de` when an entry is compared.  Calls and entries are told by the
indices of the entries on the way to them. -/
structure Stack where
  buf : List ℕ → ℕ → Byte
  behind : List ℕ → ℕ → Byte

/-- The stack of the call for entry `i`. -/
def Stack.inner (stack : Stack) (i : ℕ) : Stack where
  buf way := stack.buf (i :: way)
  behind way := stack.behind (i :: way)

variable {dirsiz : ℕ}

/-- `strcmp(de.name, s) == 0`. -/
def Dirent.equals (de : Dirent dirsiz) (behind : ℕ → Byte) (s : List Byte) : Bool :=
  spells nul (followedBy de.name behind) s

/-- The loop of `find` over the entries that are left, from index `i` on; `find` is the
recursive call. -/
def findLoop (kernel : Kernel dirsiz) (stack : Stack) (name : List Byte)
    (find : Stack → List Byte → Option (List Line)) (p : ℕ) :
    List (Dirent dirsiz) → (i : ℕ) → (buf : List Byte) → Option (List Line)
  | [], _, _ => some []
  | de :: entries, i, buf =>
      if de.inum = 0 ∨ de.equals (stack.behind [i]) [dot] ∨ de.equals (stack.behind [i]) [dot, dot]
      then findLoop kernel stack name find p entries (i + 1) buf
      else
        -- memmove(p, de.name, DIRSIZ); p[DIRSIZ] = 0;
        let buf := patch (patch buf p de.name) (p + dirsiz) [nul]
        match kernel.stat (text nul buf) with
        | none => do
            let rest ← findLoop kernel stack name find p entries (i + 1) buf
            return .cannotStat (text nul buf) :: rest
        | some type => do
            let here := if de.equals (stack.behind [i]) name then [.found (text nul buf)] else []
            let lower ← (if type = .dir then find (stack.inner i) (text nul buf) else some [])
            let rest ← findLoop kernel stack name find p entries (i + 1) buf
            return here ++ lower ++ rest

/-- `find(path, name)`: the lines it prints, or `none` if it has not returned within the fuel. -/
def find (kernel : Kernel dirsiz) (name : List Byte) :
    (fuel : ℕ) → Stack → (path : List Byte) → Option (List Line)
  | 0, _, _ => none
  | fuel + 1, stack, path =>
      match kernel.opened path with
      | none => some [.cannotOpen path]
      | some entries =>
          if bufSize < path.length + 1 + dirsiz + 1 then some [.tooLong]
          else
            -- strcpy(buf, path); p = buf + strlen(buf); *p++ = '/';
            let buf := patch (slice (stack.buf []) 0 bufSize) 0 (path ++ [nul])
            let p := (text nul buf).length
            let buf := patch buf p [slash]
            findLoop kernel stack name (find kernel name fuel) (p + 1) entries 0 buf

/-! ## Directory trees -/

/-- The name of an entry. -/
def Dirent.fname (de : Dirent dirsiz) : List Byte := text nul de.name

/-- The entry is neither a free slot nor `.` nor `..`. -/
def Dirent.Live (de : Dirent dirsiz) : Prop :=
  de.inum ≠ 0 ∧ de.fname ≠ [dot] ∧ de.fname ≠ [dot, dot]

instance (de : Dirent dirsiz) : Decidable de.Live := inferInstanceAs (Decidable (_ ∧ _ ∧ _))

/-- A directory with everything below it, as the list of its entries.  A leaf is a free slot,
`.` or `..`, or an entry for something that is not a directory. -/
inductive Dir (dirsiz : ℕ)
  | nil
  | leaf (de : Dirent dirsiz) (rest : Dir dirsiz)
  | dir (de : Dirent dirsiz) (hlive : de.Live) (sub rest : Dir dirsiz)

/-- `path/e` for the name `e` of an entry. -/
def under (path : List Byte) (de : Dirent dirsiz) : List Byte := path ++ slash :: de.fname

namespace Dir

/-- What reading the directory gives. -/
def entries : Dir dirsiz → List (Dirent dirsiz)
  | nil => []
  | leaf de rest => de :: rest.entries
  | dir de _ _ rest => de :: rest.entries

/-- The paths of the directories below. -/
def dirs : Dir dirsiz → List Byte → List (List Byte)
  | nil, _ => []
  | leaf _ rest, path => rest.dirs path
  | dir de _ sub rest, path => under path de :: sub.dirs (under path de) ++ rest.dirs path

/-- The paths of the entries at any depth whose name is `name`. -/
def paths (name : List Byte) : Dir dirsiz → List Byte → List (List Byte)
  | nil, _ => []
  | leaf de rest, path =>
      (if de.Live ∧ de.fname = name then [under path de] else []) ++ rest.paths name path
  | dir de _ sub rest, path =>
      (if de.fname = name then [under path de] else []) ++ sub.paths name (under path de) ++
        rest.paths name path

/-- The kernel answers `stat` and `open` below `path` with what the tree has there. -/
def Answers (kernel : Kernel dirsiz) : Dir dirsiz → List Byte → Prop
  | nil, _ => True
  | leaf de rest, path =>
      (de.Live → ∃ type, kernel.stat (under path de) = some type ∧ type ≠ .dir) ∧
        rest.Answers kernel path
  | dir de _ sub rest, path =>
      kernel.stat (under path de) = some .dir ∧
        kernel.opened (under path de) = some sub.entries ∧ sub.Answers kernel (under path de) ∧
        rest.Answers kernel path

end Dir

/-- `open`, `read` and `stat` succeed, and show the tree `d` at `path`. -/
structure Presents (kernel : Kernel dirsiz) (path : List Byte) (d : Dir dirsiz) : Prop where
  opened : kernel.opened path = some d.entries
  answers : d.Answers kernel path

/-- `find(path, name)` returns and has printed, once each, the paths of the entries that have
the name, and nothing else. -/
def PrintsExactly (kernel : Kernel dirsiz) (stack : Stack) (path name : List Byte)
    (d : Dir dirsiz) : Prop :=
  ∃ lines, (∃ enough, ∀ fuel ≥ enough, find kernel name fuel stack path = some lines) ∧
    lines.Perm ((d.paths name path).map .found)

/-- The buffer has room for the path of a directory, a slash, a name of full width and the
terminator. -/
def Room (dirsiz : ℕ) (path : List Byte) : Prop := path.length + 1 + dirsiz + 1 ≤ bufSize

instance (path : List Byte) : Decidable (Room dirsiz path) := inferInstanceAs (Decidable (_ ≤ _))

/-- An entry that is compared, with its path and the bytes behind `de` at that time. -/
structure Visit (dirsiz : ℕ) where
  path : List Byte
  de : Dirent dirsiz
  behind : ℕ → Byte

/-- All entries that are compared, from index `i` on. -/
def Dir.visits : Dir dirsiz → Stack → (path : List Byte) → (i : ℕ) → List (Visit dirsiz)
  | nil, _, _, _ => []
  | leaf de rest, stack, path, i =>
      (if de.Live then [⟨under path de, de, stack.behind [i]⟩] else []) ++
        rest.visits stack path (i + 1)
  | dir de _ sub rest, stack, path, i =>
      ⟨under path de, de, stack.behind [i]⟩ :: sub.visits (stack.inner i) (under path de) 0 ++
        rest.visits stack path (i + 1)

/-- If the name of the entry is of full width and starts the name that is looked for, then
the bytes behind `de` continue it to the end exactly when there is nothing to continue: then
the first of them is a terminator. -/
def Visit.Clean (v : Visit dirsiz) (name : List Byte) : Prop :=
  nul ∉ v.de.name → v.de.name <+: name →
    (spells nul v.behind (name.drop dirsiz) ↔ name.length = dirsiz)

instance (v : Visit dirsiz) (name : List Byte) : Decidable (v.Clean name) :=
  inferInstanceAs (Decidable (_ → _ → _))

/-! ## What is printed -/

/-- The lines that `find` prints for the entries from index `i` on. -/
def Dir.lines (name : List Byte) : Dir dirsiz → Stack → (path : List Byte) → (i : ℕ) → List Line
  | nil, _, _, _ => []
  | leaf de rest, stack, path, i =>
      (if de.Live ∧ de.equals (stack.behind [i]) name then [.found (under path de)] else []) ++
        rest.lines name stack path (i + 1)
  | dir de _ sub rest, stack, path, i =>
      (if de.equals (stack.behind [i]) name then [.found (under path de)] else []) ++
        (if Room dirsiz (under path de) then sub.lines name (stack.inner i) (under path de) 0
          else [.tooLong]) ++
        rest.lines name stack path (i + 1)

section Buffer

variable {buf path : List Byte}

/-- The buffer of a call holds the path and a slash. -/
structure Holds (buf path : List Byte) : Prop where
  length_eq : buf.length = bufSize
  starts : path ++ [slash] <+: buf

theorem nul_notMem_slash (hpath : nul ∉ path) : nul ∉ path ++ [slash] := by
  rw [List.mem_append, List.mem_singleton]
  rintro (hmem | heq)
  · exact hpath hmem
  · exact absurd heq (by decide)

theorem nul_notMem_under (hpath : nul ∉ path) (de : Dirent dirsiz) : nul ∉ under path de := by
  have hsplit : under path de = (path ++ [slash]) ++ de.fname := by simp [under]
  rw [hsplit, List.mem_append]
  rintro (hmem | hmem)
  · exact nul_notMem_slash hpath hmem
  · exact notMem_text _ hmem

/-- Storing a name leaves the path before it, and makes the path of the entry. -/
theorem Holds.store (h : Holds buf path) (hpath : nul ∉ path) (hroom : Room dirsiz path)
    (de : Dirent dirsiz) :
    Holds (patch (patch buf (path.length + 1) de.name) (path.length + 1 + dirsiz) [nul]) path ∧
      text nul (patch (patch buf (path.length + 1) de.name) (path.length + 1 + dirsiz) [nul])
        = under path de := by
  obtain ⟨rest, hrest⟩ := h.starts
  have hlength := h.length_eq
  have hname := de.length_name
  rw [Room] at hroom
  have hfirst : patch buf (path.length + 1) de.name
      = (path ++ [slash] ++ de.name) ++ rest.drop dirsiz := by
    rw [← hrest, patch_append _ _ _ (by simp), hname]
  have hsecond : patch (patch buf (path.length + 1) de.name) (path.length + 1 + dirsiz) [nul]
      = (path ++ [slash]) ++ (de.name ++ nul :: (rest.drop dirsiz).drop 1) := by
    rw [hfirst, patch_append _ _ _ (by simp [hname]; omega)]
    simp
  refine ⟨⟨?_, ?_⟩, ?_⟩
  · rw [length_patch, length_patch, hlength]
    · omega
    · rw [length_patch _ _ _ (by omega), List.length_singleton]
      omega
  · rw [hsecond]
    exact List.prefix_append _ _
  · rw [hsecond, text_append (nul_notMem_slash hpath), text_terminated]
    simp [under, Dirent.fname]

/-- The buffer after `strcpy` and the slash. -/
theorem holds_start (garbage : ℕ → Byte) (hpath : nul ∉ path) (hroom : Room dirsiz path) :
    text nul (patch (slice garbage 0 bufSize) 0 (path ++ [nul])) = path ∧
      Holds (patch (patch (slice garbage 0 bufSize) 0 (path ++ [nul])) path.length [slash])
        path := by
  rw [Room] at hroom
  have hcopy : patch (slice garbage 0 bufSize) 0 (path ++ [nul])
      = path ++ nul :: (slice garbage 0 bufSize).drop (path.length + 1) := by
    simp [patch]
  have hlength : (patch (slice garbage 0 bufSize) 0 (path ++ [nul])).length = bufSize := by
    rw [length_patch, length_slice]
    rw [length_slice, List.length_append, List.length_singleton]
    omega
  refine ⟨?_, ?_, ?_⟩
  · rw [hcopy, text_terminated, text_eq_self hpath]
  · rw [length_patch, hlength]
    rw [hlength, List.length_singleton]
    omega
  · rw [hcopy, patch_append _ _ _ rfl]
    exact List.prefix_append _ _

end Buffer

section Evaluation

variable {kernel : Kernel dirsiz} {name path buf : List Byte} {stack : Stack}

/-- The names `.` and `..` are compared inside the field. -/
theorem Dirent.skip_iff (hdirsiz : 2 < dirsiz) (de : Dirent dirsiz) (behind : ℕ → Byte) :
    (de.inum = 0 ∨ de.equals behind [dot] ∨ de.equals behind [dot, dot]) ↔ ¬ de.Live := by
  have hname := de.length_name
  rw [Dirent.equals, Dirent.equals,
    spells_followedBy_of_lt (by decide) (by rw [List.length_singleton]; omega),
    spells_followedBy_of_lt (by decide) (by simp; omega)]
  simp only [Dirent.Live, Dirent.fname, not_and_or, not_not]

/-- A turn of the loop for an entry that is skipped. -/
theorem findLoop_skip (hdirsiz : 2 < dirsiz) {de : Dirent dirsiz} (hskip : ¬ de.Live)
    (inner : Stack → List Byte → Option (List Line)) (p : ℕ) (entries : List (Dirent dirsiz))
    (i : ℕ) :
    findLoop kernel stack name inner p (de :: entries) i buf
      = findLoop kernel stack name inner p entries (i + 1) buf := by
  rw [findLoop, if_pos ((de.skip_iff hdirsiz _).mpr hskip)]

/-- A turn of the loop for an entry that is compared. -/
theorem findLoop_live (hdirsiz : 2 < dirsiz) (hpath : nul ∉ path) (hroom : Room dirsiz path)
    (hbuf : Holds buf path) {de : Dirent dirsiz} (hlive : de.Live) {type : FileType}
    (hstat : kernel.stat (under path de) = some type) :
    ∃ buf', Holds buf' path ∧ ∀ (inner : Stack → List Byte → Option (List Line))
      (entries : List (Dirent dirsiz)) (i : ℕ),
      findLoop kernel stack name inner (path.length + 1) (de :: entries) i buf
        = (if type = .dir then inner (stack.inner i) (under path de) else some []).bind fun lower =>
          (findLoop kernel stack name inner (path.length + 1) entries (i + 1) buf').map fun rest =>
            (if de.equals (stack.behind [i]) name then [.found (under path de)] else []) ++
              lower ++ rest := by
  obtain ⟨hholds, htext⟩ := hbuf.store hpath hroom de
  refine ⟨_, hholds, fun inner entries i => ?_⟩
  rw [findLoop, if_neg (fun hskip => (de.skip_iff hdirsiz _).mp hskip hlive)]
  simp only [htext, hstat, Option.map_eq_bind]
  rfl

/-- A call whose path leaves room runs the loop. -/
theorem find_room (hpath : nul ∉ path) (hroom : Room dirsiz path) {d : Dir dirsiz}
    (hopened : kernel.opened path = some d.entries) (stack : Stack) :
    ∃ buf, Holds buf path ∧ ∀ fuel, find kernel name (fuel + 1) stack path
      = findLoop kernel stack name (find kernel name fuel) (path.length + 1) d.entries 0 buf := by
  obtain ⟨htext, hholds⟩ := holds_start (stack.buf []) hpath hroom
  refine ⟨_, hholds, fun fuel => ?_⟩
  rw [find, hopened]
  simp only [htext]
  rw [if_neg (Nat.not_lt.mpr hroom)]

theorem find_tooLong (hroom : ¬ Room dirsiz path) {d : Dir dirsiz}
    (hopened : kernel.opened path = some d.entries) (fuel : ℕ) (stack : Stack) :
    find kernel name (fuel + 1) stack path = some [.tooLong] := by
  rw [find, hopened]
  simp only
  rw [if_pos (Nat.not_le.mp hroom)]

/-- The loop prints the lines of its entries. -/
theorem findLoop_eq (hdirsiz : 2 < dirsiz) (d : Dir dirsiz) {stack : Stack} {path buf : List Byte}
    {i : ℕ} (hpath : nul ∉ path) (hroom : Room dirsiz path) (hbuf : Holds buf path)
    (hanswers : d.Answers kernel path) :
    ∃ enough, ∀ fuel ≥ enough, findLoop kernel stack name (find kernel name fuel) (path.length + 1)
      d.entries i buf = some (d.lines name stack path i) := by
  induction d generalizing stack path buf i with
  | nil => exact ⟨0, fun fuel _ => rfl⟩
  | leaf de rest ih =>
      obtain ⟨hstat, hrest⟩ := hanswers
      by_cases hlive : de.Live
      · obtain ⟨type, htype, hleaf⟩ := hstat hlive
        obtain ⟨buf', hbuf', hturn⟩ :=
          @findLoop_live _ _ name _ _ stack hdirsiz hpath hroom hbuf _ hlive _ htype
        obtain ⟨enough, henough⟩ := @ih stack path buf' (i + 1) hpath hroom hbuf' hrest
        refine ⟨enough, fun fuel hfuel => ?_⟩
        rw [Dir.entries, hturn, henough fuel hfuel, if_neg hleaf, Dir.lines]
        simp [hlive]
      · obtain ⟨enough, henough⟩ := @ih stack path buf (i + 1) hpath hroom hbuf hrest
        refine ⟨enough, fun fuel hfuel => ?_⟩
        rw [Dir.entries, findLoop_skip hdirsiz hlive, henough fuel hfuel, Dir.lines]
        simp [hlive]
  | dir de hlive sub rest ihSub ihRest =>
      obtain ⟨hstat, hopened, hsub, hrest⟩ := hanswers
      obtain ⟨buf', hbuf', hturn⟩ :=
        @findLoop_live _ _ name _ _ stack hdirsiz hpath hroom hbuf _ hlive _ hstat
      obtain ⟨enough, henough⟩ := @ihRest stack path buf' (i + 1) hpath hroom hbuf' hrest
      by_cases hlower : Room dirsiz (under path de)
      · obtain ⟨lower, hholds, hcall⟩ :=
          @find_room _ _ name _ (nul_notMem_under hpath de) hlower _ hopened (stack.inner i)
        obtain ⟨enough', henough'⟩ := @ihSub (stack.inner i) (under path de) lower 0
          (nul_notMem_under hpath de) hlower hholds hsub
        refine ⟨max enough (enough' + 1), fun fuel hfuel => ?_⟩
        obtain ⟨fuel, rfl⟩ := Nat.exists_eq_succ_of_ne_zero (show fuel ≠ 0 by omega)
        rw [Dir.entries, hturn, henough _ (by omega), if_pos rfl, hcall, henough' _ (by omega),
          Dir.lines, if_pos hlower]
        rfl
      · refine ⟨max enough 1, fun fuel hfuel => ?_⟩
        obtain ⟨fuel, rfl⟩ := Nat.exists_eq_succ_of_ne_zero (show fuel ≠ 0 by omega)
        rw [Dir.entries, hturn, henough _ (by omega), if_pos rfl, find_tooLong hlower hopened,
          Dir.lines, if_neg hlower]
        rfl

/-- With enough fuel a call returns, and prints the lines of the tree or that its path is too
long. -/
theorem find_eq (hdirsiz : 2 < dirsiz) (hpath : nul ∉ path) {d : Dir dirsiz}
    (h : Presents kernel path d) (stack : Stack) :
    ∃ enough, ∀ fuel ≥ enough, find kernel name fuel stack path
      = some (if Room dirsiz path then d.lines name stack path 0 else [.tooLong]) := by
  by_cases hroom : Room dirsiz path
  · obtain ⟨buf, hbuf, hcall⟩ := @find_room _ _ name _ hpath hroom d h.opened stack
    obtain ⟨enough, henough⟩ :=
      @findLoop_eq _ _ name hdirsiz d stack path buf 0 hpath hroom hbuf h.answers
    refine ⟨enough + 1, fun fuel hfuel => ?_⟩
    obtain ⟨fuel, rfl⟩ := Nat.exists_eq_succ_of_ne_zero (show fuel ≠ 0 by omega)
    rw [hcall, henough fuel (by omega), if_pos hroom]
  · refine ⟨1, fun fuel hfuel => ?_⟩
    obtain ⟨fuel, rfl⟩ := Nat.exists_eq_succ_of_ne_zero (show fuel ≠ 0 by omega)
    rw [find_tooLong hroom h.opened, if_neg hroom]

end Evaluation

/-! ## What should be printed -/

section Comparison

variable {name : List Byte}

theorem Dirent.equals_iff (de : Dirent dirsiz) (behind : ℕ → Byte) (hname : nul ∉ name) :
    de.equals behind name ↔ (name.length < dirsiz ∧ de.fname = name) ∨
      (nul ∉ de.name ∧ de.name <+: name ∧ spells nul behind (name.drop dirsiz)) := by
  rw [Dirent.equals, spells_followedBy _ hname, de.length_name, Dirent.fname]

/-- The comparison of an entry is right just when it is right behind a name of full width. -/
theorem Visit.clean_iff (v : Visit dirsiz) (hname : nul ∉ name) :
    v.Clean name ↔ (v.de.equals v.behind name ↔ v.de.fname = name) := by
  have hwidth := v.de.length_name
  rw [v.de.equals_iff v.behind hname]
  by_cases hfull : nul ∉ v.de.name ∧ v.de.name <+: name
  · obtain ⟨hnul, hprefix⟩ := hfull
    have hle := hprefix.length_le
    have hequal : v.de.fname = name ↔ name.length = dirsiz := by
      rw [Dirent.fname, text_eq_self hnul]
      constructor
      · rintro rfl
        exact hwidth
      · exact fun hlength => hprefix.eq_of_length (hwidth.trans hlength.symm)
    rw [hequal]
    constructor
    · intro hclean
      rw [← hclean hnul hprefix]
      constructor
      · rintro (⟨hlt, -⟩ | ⟨-, -, hspells⟩)
        · omega
        · exact hspells
      · exact fun hspells => Or.inr ⟨hnul, hprefix, hspells⟩
    · intro hiff _ _
      rw [← hiff]
      constructor
      · exact fun hspells => Or.inr ⟨hnul, hprefix, hspells⟩
      · rintro (⟨hlt, -⟩ | ⟨-, -, hspells⟩)
        · omega
        · exact hspells
  · have hclean : v.Clean name := fun hnul hprefix => absurd ⟨hnul, hprefix⟩ hfull
    refine iff_of_true hclean ⟨?_, ?_⟩
    · rintro (⟨-, hequal⟩ | ⟨hnul, hprefix, -⟩)
      · exact hequal
      · exact absurd ⟨hnul, hprefix⟩ hfull
    · intro hequal
      refine Or.inl ⟨?_, hequal⟩
      -- The name of the entry is not of full width, so it is shorter than the field.
      by_contra hle
      have hlength : (text nul v.de.name).length = v.de.name.length := by
        have htext := @length_text_le _ _ nul v.de.name
        rw [← hequal, Dirent.fname] at hle
        omega
      have hself := text_eq_of_length hlength
      refine hfull ⟨?_, ?_⟩
      · rw [← hself]
        exact notMem_text _
      · rw [← hequal, Dirent.fname, hself]

/-- A name that fits the field is not taken for another one. -/
theorem Dirent.fname_of_equals (de : Dirent dirsiz) {behind : ℕ → Byte} (hname : nul ∉ name)
    (hlength : name.length ≤ dirsiz) (h : de.equals behind name) : de.fname = name := by
  rcases (de.equals_iff behind hname).mp h with ⟨-, hequal⟩ | ⟨hnul, hprefix, -⟩
  · exact hequal
  · have hle := hprefix.length_le
    rw [Dirent.fname, text_eq_self hnul]
    exact hprefix.eq_of_length (by rw [de.length_name] at hle ⊢; omega)

theorem Dirent.length_fname_le (de : Dirent dirsiz) : de.fname.length ≤ dirsiz := by
  have hle := @length_text_le _ _ nul de.name
  rwa [de.length_name] at hle

end Comparison

section Trees

variable {name : List Byte}

/-- The paths that should be printed are those of the visits that have the name. -/
theorem Dir.paths_eq (d : Dir dirsiz) (stack : Stack) (path : List Byte) (i : ℕ) :
    d.paths name path
      = ((d.visits stack path i).filter fun v => v.de.fname = name).map Visit.path := by
  induction d generalizing stack path i with
  | nil => rfl
  | leaf de rest ih =>
      rw [Dir.paths, Dir.visits, List.filter_append, List.map_append, ih stack path (i + 1)]
      congr 1
      by_cases hlive : de.Live <;> by_cases hequal : de.fname = name <;> simp [hlive, hequal]
  | dir de hlive sub rest ihSub ihRest =>
      rw [Dir.paths, Dir.visits, ihSub (stack.inner i) (under path de) 0, ihRest stack path (i + 1),
        List.filter_append, List.map_append, List.filter_cons]
      by_cases hequal : de.fname = name <;> simp [hequal]

/-- Where every directory leaves room, the lines are those of the visits whose comparison
succeeds. -/
theorem Dir.lines_eq (d : Dir dirsiz) (stack : Stack) (path : List Byte) (i : ℕ)
    (hroom : ∀ q ∈ d.dirs path, Room dirsiz q) :
    d.lines name stack path i
      = (((d.visits stack path i).filter fun v => v.de.equals v.behind name).map
          Visit.path).map .found := by
  induction d generalizing stack path i with
  | nil => rfl
  | leaf de rest ih =>
      rw [Dir.lines, Dir.visits, List.filter_append, List.map_append, List.map_append,
        ih stack path (i + 1) hroom]
      congr 1
      by_cases hlive : de.Live <;> by_cases hequal : de.equals (stack.behind [i]) name <;>
        simp [hlive, hequal]
  | dir de hlive sub rest ihSub ihRest =>
      rw [Dir.dirs, List.forall_mem_append, List.forall_mem_cons] at hroom
      obtain ⟨⟨hunder, hsub⟩, hrest⟩ := hroom
      rw [Dir.lines, Dir.visits, if_pos hunder, ihSub (stack.inner i) (under path de) 0 hsub,
        ihRest stack path (i + 1) hrest, List.filter_append, List.map_append, List.map_append,
        List.filter_cons]
      by_cases hequal : de.equals (stack.behind [i]) name <;> simp [hequal]

/-- A directory that does not leave room is reported. -/
theorem Dir.tooLong_mem (d : Dir dirsiz) (stack : Stack) (path : List Byte) (i : ℕ)
    {q : List Byte} (hq : q ∈ d.dirs path) (hroom : ¬ Room dirsiz q) :
    .tooLong ∈ d.lines name stack path i := by
  induction d generalizing stack path i with
  | nil => cases hq
  | leaf de rest ih => exact List.mem_append_right _ (ih stack path (i + 1) hq)
  | dir de hlive sub rest ihSub ihRest =>
      rw [Dir.lines, List.mem_append, List.mem_append]
      rw [Dir.dirs, List.mem_append, List.mem_cons] at hq
      rcases hq with (rfl | hsub) | hrest
      · rw [if_neg hroom]
        exact Or.inl (Or.inr List.mem_cons_self)
      · by_cases hunder : Room dirsiz (under path de)
        · rw [if_pos hunder]
          exact Or.inl (Or.inr (ihSub _ _ _ hsub))
        · rw [if_neg hunder]
          exact Or.inl (Or.inr List.mem_cons_self)
      · exact Or.inr (ihRest _ _ _ hrest)

end Trees

section Result

variable {name path : List Byte} {d : Dir dirsiz} {stack : Stack}

theorem tooLong_notMem (d : Dir dirsiz) (name path : List Byte) :
    .tooLong ∉ (d.paths name path).map Line.found := by
  simp

/-- If as many lines are printed as there are entries with the name, every comparison was
right: for a name that fits the field no other one is taken for it, and no entry has a
longer one. -/
theorem clean_of_length (hname : nul ∉ name) (visits : List (Visit dirsiz))
    (hlength : (visits.filter fun v => v.de.equals v.behind name).length
      = (visits.filter fun v => v.de.fname = name).length) :
    ∀ v ∈ visits, v.Clean name := by
  intro v hv
  rw [v.clean_iff hname]
  by_cases hfits : name.length ≤ dirsiz
  · have hsub := List.monotone_filter_right visits
      (p := fun v => v.de.equals v.behind name) (q := fun v => v.de.fname = name)
      fun v hequals => decide_eq_true (v.de.fname_of_equals hname hfits hequals)
    refine ⟨v.de.fname_of_equals hname hfits, fun hequal => ?_⟩
    have hmem : v ∈ visits.filter fun v => v.de.fname = name :=
      List.mem_filter.mpr ⟨hv, decide_eq_true hequal⟩
    rw [← hsub.eq_of_length hlength] at hmem
    exact (List.mem_filter.mp hmem).2
  · have hnever : ∀ v : Visit dirsiz, v.de.fname ≠ name := by
      rintro v rfl
      exact hfits v.de.length_fname_le
    have hnone : visits.filter (fun v => v.de.fname = name) = [] :=
      List.filter_eq_nil_iff.mpr fun v _ => by simp [hnever v]
    rw [hnone, List.length_nil, List.length_eq_zero_iff, List.filter_eq_nil_iff] at hlength
    exact iff_of_false (hlength v hv) (hnever v)

/-- As `find` returns, it prints exactly what it should when these are its lines, in any
order. -/
theorem printsExactly_iff_perm (hdirsiz : 2 < dirsiz) {kernel : Kernel dirsiz} (hpath : nul ∉ path)
    (h : Presents kernel path d) (stack : Stack) :
    PrintsExactly kernel stack path name d ↔
      (if Room dirsiz path then d.lines name stack path 0 else [.tooLong]).Perm
        ((d.paths name path).map .found) := by
  obtain ⟨enough, hfind⟩ := @find_eq _ _ name path hdirsiz hpath d h stack
  constructor
  · rintro ⟨lines, ⟨enough', hlines⟩, hperm⟩
    have hresult := (hlines (max enough enough') (le_max_right _ _)).symm.trans
      (hfind (max enough enough') (le_max_left _ _))
    rwa [← Option.some.inj hresult]
  · exact fun hperm => ⟨_, ⟨enough, hfind⟩, hperm⟩

/-- **When `find` prints what it should.**  It prints exactly the paths of the entries with
the name just when the path of every directory leaves room in the buffer for a name of full
width, and behind every entry whose name is of full width and starts the name that is looked
for, the stack happens to hold what makes the comparison right: a terminator when the names
are equal, and not the rest of the longer one when they differ. -/
theorem find_exactly_iff (hdirsiz : 2 < dirsiz) {kernel : Kernel dirsiz} (hpath : nul ∉ path)
    (hname : nul ∉ name) (h : Presents kernel path d) (stack : Stack) :
    PrintsExactly kernel stack path name d ↔
      (∀ q ∈ path :: d.dirs path, Room dirsiz q) ∧
        ∀ v ∈ d.visits stack path 0, v.Clean name := by
  have hpaths := @Dir.paths_eq _ name d stack path 0
  rw [printsExactly_iff_perm hdirsiz hpath h stack, List.forall_mem_cons]
  constructor
  · intro hperm
    have hquiet := mt hperm.mem_iff.mp (tooLong_notMem d name path)
    by_cases hroom : Room dirsiz path
    · rw [if_pos hroom] at hperm hquiet
      have hall : ∀ q ∈ d.dirs path, Room dirsiz q := by
        intro q hq
        by_contra hnone
        exact hquiet (d.tooLong_mem stack path 0 hq hnone)
      refine ⟨⟨hroom, hall⟩, clean_of_length hname _ ?_⟩
      have hlength := hperm.length_eq
      rw [d.lines_eq stack path 0 hall, hpaths] at hlength
      simpa only [List.length_map] using hlength
    · rw [if_neg hroom] at hquiet
      exact absurd List.mem_cons_self hquiet
  · rintro ⟨⟨hroom, hall⟩, hclean⟩
    have hsame : (d.visits stack path 0).filter (fun v => v.de.equals v.behind name)
        = (d.visits stack path 0).filter fun v => v.de.fname = name := by
      refine List.filter_congr fun v hv => ?_
      have hiff := (v.clean_iff hname).mp (hclean v hv)
      by_cases hequal : v.de.fname = name
      · simp [hequal, hiff.mpr hequal]
      · simpa [hequal] using fun hequals => hequal (hiff.mp hequals)
    rw [if_pos hroom, d.lines_eq stack path 0 hall, hpaths, hsame]

end Result

section Example

/-- An entry in use, with its name padded with zeros. -/
def entry (name : List Byte) (hname : name.length ≤ 14) : Dirent 14 where
  inum := 1
  name := name ++ List.replicate (14 - name.length) nul
  length_name := by simp [hname]

/-- A name of 14 bytes. -/
def letters : List Byte := [97, 98, 99, 100, 101, 102, 103, 104, 105, 106, 107, 108, 109, 110]

/-- The directory `d`, with a file of that name in it. -/
def sampleDir : Dir 14 :=
  .leaf (entry [dot] (by decide)) (.leaf (entry [dot, dot] (by decide))
    (.leaf (entry letters (by decide)) .nil))

/-- The current directory, with the directory `d` in it. -/
def sampleTree : Dir 14 := .dir (entry [100] (by decide)) (by decide) sampleDir .nil

def sampleKernel : Kernel 14 where
  opened path :=
    if path = [dot] then some sampleTree.entries
    else if path = [dot, slash, 100] then some sampleDir.entries else none
  stat path :=
    if path = [dot, slash, 100] then some .dir
    else if path = [dot, slash, 100, slash] ++ letters then some .file else none

theorem sampleKernel_presents : Presents sampleKernel [dot] sampleTree :=
  ⟨rfl, rfl, rfl, ⟨fun h => absurd h (by decide), fun h => absurd h (by decide),
    fun _ => ⟨.file, rfl, by decide⟩, trivial⟩, trivial⟩

/-- With zeros behind `de` the file is found. -/
theorem find_exactly_zeros :
    PrintsExactly sampleKernel ⟨fun _ _ => 0, fun _ _ => 0⟩ [dot] letters sampleTree :=
  (find_exactly_iff (by decide) (by decide) (by decide) sampleKernel_presents _).mpr
    ⟨by decide, by decide⟩

/-- With the first byte of the path behind `de` it is not. -/
theorem find_not_exactly : ¬ ∀ (kernel : Kernel 14) (stack : Stack) (path name : List Byte)
    (d : Dir 14), nul ∉ path → nul ∉ name → Presents kernel path d →
    (∀ q ∈ path :: d.dirs path, Room 14 q) → PrintsExactly kernel stack path name d := by
  intro hall
  have hprints := hall sampleKernel ⟨fun _ _ => 0, fun _ _ => dot⟩ [dot] letters sampleTree
    (by decide) (by decide) sampleKernel_presents (by decide)
  rw [printsExactly_iff_perm (by decide) (by decide) sampleKernel_presents] at hprints
  exact absurd hprints.length_eq (by decide)

end Example

end OperateSystem.Find
