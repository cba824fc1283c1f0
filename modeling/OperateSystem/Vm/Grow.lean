import OperateSystem.Vm.Unmap

/-!
# Growing and shrinking user memory

`uvmalloc` and `uvmdealloc`.  The first takes one page for each new virtual page
and the tables that are missing, or, when the free list is too short for that,
gives back every page but the tables it has added.
-/

namespace OperateSystem.Vm

open OperateSystem.PointerTree

/-- The number of pages that `sz` bytes take. -/
def pages (sz : ℕ) : ℕ := (sz + 4095) / 4096

theorem pgRoundUp_pages {sz : ℕ} (h : sz < 2 ^ 63) : pgRoundUp sz = pages sz * 4096 :=
  pgRoundUp_eq h

theorem pages_mul (n : ℕ) : pages (n * 4096) = n := by
  rw [pages]
  omega

theorem pages_mono {sz sz' : ℕ} (h : sz ≤ sz') : pages sz ≤ pages sz' :=
  Nat.div_le_div_right (by omega)

/-- A change that only adds pages: what the space owned stays mapped as it was,
with the same contents. -/
structure Grow (root : ℕ) (S S' : Set ℕ) (added : Finset (List (Fin 512))) (map : ℕ → Word)
    (m m' : Machine) : Prop extends Change root S S' added map m m' where
  sub : S ⊆ S'
  same : ∀ vpn ∈ S, map vpn = entry m.mem root vpn
  keep : ∀ vpn ∈ S, m'.mem (pte2pa (entry m.mem root vpn))
    = m.mem (pte2pa (entry m.mem root vpn))

section Grow

variable {root : ℕ} {m m' m'' : Machine} {S S' S'' : Set ℕ}
  {added added' : Finset (List (Fin 512))} {map map' : ℕ → Word}

theorem Grow.refl (h : Space m.mem root S) (hapart : Apart m (held m.mem root S)) :
    Grow root S S ∅ (entry m.mem root) m m where
  toChange := h.refl hapart
  sub := fun _ hv => hv
  same := fun _ _ => rfl
  keep := fun _ _ => rfl

theorem Grow.trans (h : Grow root S S' added map m m')
    (h' : Grow root S' S'' added' map' m' m'') :
    Grow root S S'' (added ∪ added') map' m m'' where
  toChange := h.toChange.trans h'.toChange
  sub := h.sub.trans h'.sub
  same := by
    intro vpn hvpn
    have hsmall := h'.space.small vpn (h'.sub (h.sub hvpn))
    rw [h'.same vpn (h.sub hvpn), h.entry_eq vpn hsmall, h.same vpn hvpn]
  keep := by
    intro vpn hvpn
    have hsmall := h'.space.small vpn (h'.sub (h.sub hvpn))
    have hentry : entry m'.mem root vpn = entry m.mem root vpn := by
      rw [h.entry_eq vpn hsmall, h.same vpn hvpn]
    have hkeep' := h'.keep vpn (h.sub hvpn)
    rw [hentry] at hkeep'
    rw [hkeep', h.keep vpn hvpn]

variable {page vpn : ℕ} {free : List ℕ} {content : Page} {flags : Word}

/-- A page taken off the list and mapped, with the contents it was given. -/
theorem Grow.map_page (h : Space m.mem root S) (hapart : Apart m (held m.mem root S))
    (hfree : m.free = page :: free) (hvpn : vpn < 2 ^ 26) (hnew : vpn ∉ S)
    (hflags : flags.toNat < 2 ^ 10)
    (hedit : Edit root added
      (Function.update (entry m.mem root) vpn (pa2pte page ||| flags ||| pteV))
      (take m page free content) m') :
    Grow root S (insert vpn S) added
      (Function.update (entry m.mem root) vpn (pa2pte page ||| flags ||| pteV)) m m' ∧
      m'.mem page = content ∧ page ∉ held m.mem root S := by
  obtain ⟨-, -, -, htables, -, -, hpage, hnotfree, -⟩ := take_spec h hapart hfree content
  refine ⟨⟨Change.map_page h hapart hfree content hvpn hnew hflags hedit, Set.subset_insert _ _,
    ?_, ?_⟩, ?_, hpage⟩
  · intro v hv
    rw [Function.update_of_ne]
    rintro rfl
    exact hnew hv
  · intro v hv
    have hne : pte2pa (entry m.mem root v) ≠ page := by
      rintro rfl
      exact hpage (Or.inr ⟨v, hv, rfl⟩)
    rw [hedit.moves.frame, take_of_ne m free content hne]
    · rw [htables]
      exact h.apart v hv
    · intro hmem
      exact hapart.apart _ (show _ ∈ m.free by rw [hfree]; exact List.mem_cons_of_mem _ hmem)
        (Or.inr ⟨v, hv, rfl⟩)
  · rw [hedit.moves.frame page _ hnotfree]
    · exact Function.update_self _ _ _
    · rw [htables]
      exact fun htable => hpage (Or.inl htable)

/-- A page taken off the list and given back after the mapping has failed. -/
theorem Change.give_back (h : Space m.mem root S) (hapart : Apart m (held m.mem root S))
    (hfree : m.free = page :: free) (hedit : Edit root added (entry m.mem root)
      (take m page free content) m') :
    Change root S S added (entry m.mem root) m (m'.kfree page) ∧
      (m'.kfree page).free.length + added.card = m.free.length := by
  obtain ⟨hspace₁, hapart₁, hentry₁, htables₁, hheld₁, hnode₁, hpage, hnotfree, hbound⟩ :=
    take_spec h hapart hfree content
  have hchange := hedit.change hspace₁ hapart₁ fun v _ => by rw [hentry₁]
  have hout : page ∉ held m'.mem root S ∧ page ∉ m'.free := by
    rw [← not_or, hchange.moves.conserve page, hheld₁, not_or]
    exact ⟨hpage, hnotfree⟩
  have hframe : ∀ other ∈ tables m'.mem root, (m'.kfree page).mem other = m'.mem other := by
    intro other hother
    apply fill_of_ne
    rintro rfl
    exact hout.1 (Or.inl hother)
  have hheld : held (m'.kfree page).mem root S = held m'.mem root S := held_frame hframe
  refine ⟨⟨⟨?_, ?_⟩, hchange.space.frame hframe, ⟨?_, ?_, ?_, ?_⟩, ?_⟩, ?_⟩
  · intro path hlength hpath
    rw [node_frame hframe hlength, hedit.old path hlength hpath, hnode₁ path hlength]
  · intro path hpath
    obtain ⟨hlength, hnone, hsome⟩ := hedit.new path hpath
    rw [hnode₁ path hlength] at hnone
    rw [node_frame hframe hlength]
    exact ⟨hlength, hnone, hsome⟩
  · exact List.nodup_cons.mpr ⟨hout.2, hchange.moves.nodup⟩
  · intro other hother
    rw [hheld]
    rcases List.mem_cons.mp hother with rfl | hother
    · exact hout.1
    · exact hchange.moves.apart other hother
  · intro other
    rw [hheld]
    change other ∈ _ ∨ other ∈ page :: m'.free ↔ _
    rw [List.mem_cons, or_left_comm, hchange.moves.conserve other, hheld₁, hfree, List.mem_cons]
    change other = page ∨ (other ∈ held m.mem root S ∨ other ∈ free) ↔ _
    tauto
  · intro other hheld' hother
    rw [hfree, List.mem_cons, not_or] at hother
    rw [show (m'.kfree page).mem other = m'.mem other from fill_of_ne _ _ hother.1,
      hchange.moves.frame other (by rw [hheld₁]; exact hheld') hother.2]
    exact take_of_ne m free content hother.1
  · intro v hv
    rw [entry_frame hframe, hedit.entry_eq v hv]
  · have hcount : free.length = m'.free.length + added.card := hedit.count
    change (page :: m'.free).length + _ = _
    rw [hfree, List.length_cons, List.length_cons, hcount]
    omega

end Grow

section Dealloc

variable {root : ℕ} {m : Machine} {S : Set ℕ}

theorem uvmunmap_none (m : Machine) (root n : ℕ) (doFree : Bool) :
    uvmunmap m root (n * 4096) 0 doFree = .ok m := by
  have haligned : ¬ (n * 4096 % pgSize ≠ 0) := by
    rw [pgSize]
    omega
  rw [uvmunmap, if_neg haligned, uvmunmapLoop]

/-- Both deallocations unmap the pages between the two sizes. -/
theorem dealloc_eq (doFree : Bool) {oldsz newsz : ℕ} (hold : oldsz < 2 ^ 63) :
    dealloc doFree m root oldsz newsz
      = (uvmunmap m root (pages newsz * 4096) (pages oldsz - pages newsz) doFree).map
        fun m' => (min oldsz newsz, m') := by
  rw [dealloc]
  by_cases hle : oldsz ≤ newsz
  · rw [if_pos hle, Nat.min_eq_left hle, Nat.sub_eq_zero_of_le (pages_mono hle), uvmunmap_none]
    rfl
  · rw [if_neg hle, pgRoundUp_pages hold, pgRoundUp_pages (show newsz < 2 ^ 63 by omega),
      Nat.min_eq_right (by omega)]
    by_cases hlt : pages newsz * 4096 < pages oldsz * 4096
    · have hcount : (pages oldsz * 4096 - pages newsz * 4096) / pgSize
          = pages oldsz - pages newsz := by
        rw [pgSize]
        omega
      rw [if_pos hlt, hcount]
      simp only
      cases uvmunmap m root (pages newsz * 4096) (pages oldsz - pages newsz) doFree <;> rfl
    · rw [if_neg hlt, Nat.sub_eq_zero_of_le (by omega), uvmunmap_none]
      rfl

/-- `uvmdealloc` frees the pages between the two sizes. -/
theorem uvmdealloc_spec (h : Space m.mem root S) (hapart : Apart m (held m.mem root S))
    {oldsz newsz : ℕ} (hold : oldsz < 2 ^ 63)
    (hrange : ∀ vpn, pages newsz ≤ vpn → vpn < pages oldsz → vpn ∈ S) :
    ∃ m', uvmdealloc m root oldsz newsz = .ok (min oldsz newsz, m') ∧
      m'.free.length = m.free.length + (pages oldsz - pages newsz) ∧
      Change root S (S \ Set.Ico (pages newsz) (pages oldsz)) ∅
        (clearMap (entry m.mem root) (pages newsz) (pages oldsz - pages newsz)) m m' := by
  have hrange' : ∀ vpn, pages newsz ≤ vpn → vpn < pages newsz + (pages oldsz - pages newsz) →
      vpn ∈ S := fun vpn hlo hhi => hrange vpn hlo (by omega)
  obtain ⟨m', hunmap, hlength, hchange⟩ := uvmunmap_free rfl h hapart hrange'
  have hsets : S \ Set.Ico (pages newsz) (pages newsz + (pages oldsz - pages newsz))
      = S \ Set.Ico (pages newsz) (pages oldsz) := by
    ext vpn
    simp only [Set.mem_sdiff, Set.mem_Ico]
    apply and_congr_right
    intro _
    omega
  rw [hsets] at hchange
  refine ⟨m', ?_, hlength, hchange⟩
  rw [uvmdealloc, dealloc_eq true hold, hunmap]
  rfl

/-- `uvmdealloc` as `uvmalloc` calls it to give back the pages from `v₀` on. -/
theorem uvmdealloc_pages (h : Space m.mem root S) (hapart : Apart m (held m.mem root S))
    {v v₀ : ℕ} (hv : 4096 * v < 2 ^ 63) (hrange : ∀ vpn, v₀ ≤ vpn → vpn < v → vpn ∈ S) :
    ∃ m' sz, uvmdealloc m root (4096 * v) (v₀ * 4096) = .ok (sz, m') ∧
      m'.free.length = m.free.length + (v - v₀) ∧
      Change root S (S \ Set.Ico v₀ v) ∅ (clearMap (entry m.mem root) v₀ (v - v₀)) m m' := by
  have hpages : pages (4096 * v) = v := by rw [Nat.mul_comm, pages_mul]
  have hrange' : ∀ vpn, pages (v₀ * 4096) ≤ vpn → vpn < pages (4096 * v) → vpn ∈ S := by
    rw [hpages, pages_mul]
    exact hrange
  obtain ⟨m', hdealloc, hlength, hchange⟩ := uvmdealloc_spec h hapart hv hrange'
  rw [hpages, pages_mul] at hlength hchange
  exact ⟨m', _, hdealloc, hlength, hchange⟩

theorem dealloc_of_le (doFree : Bool) {oldsz newsz : ℕ} (h : oldsz ≤ newsz) :
    dealloc doFree m root oldsz newsz = .ok (oldsz, m) := by
  rw [dealloc, if_pos h]

/-- `kvmdealloc` unmaps the pages between the two sizes. -/
theorem kvmdealloc_spec (h : Ready m root) {oldsz newsz : ℕ} (hold : oldsz < 2 ^ 37)
    (hnew : newsz < 2 ^ 37)
    (hvalid : ∀ vpn, pages newsz ≤ vpn → vpn < pages oldsz → Valid (entry m.mem root vpn)) :
    ∃ m', kvmdealloc m root oldsz newsz = .ok (min oldsz newsz, m') ∧ m'.free = m.free ∧
      Edit root ∅ (clearMap (entry m.mem root) (pages newsz) (pages oldsz - pages newsz))
        m m' := by
  have hend : pages newsz + (pages oldsz - pages newsz) ≤ 2 ^ 26 := by
    rw [pages, pages]
    omega
  have hvalid' : ∀ vpn, pages newsz ≤ vpn → vpn < pages newsz + (pages oldsz - pages newsz) →
      Valid (entry m.mem root vpn) := fun vpn hlo hhi => hvalid vpn hlo (by omega)
  obtain ⟨m', hunmap, hfree, hedit⟩ := uvmunmap_keep rfl h hend hvalid'
  refine ⟨m', ?_, hfree, hedit⟩
  rw [kvmdealloc, dealloc_eq false (by omega), hunmap]
  rfl

end Dealloc

section Uvmalloc

variable {root : ℕ}

/-- The flags `uvmalloc` gives a page. -/
def userPerm : Word := pteW ||| pteX ||| pteR ||| pteU

theorem and_pteU (pte : Word) : pte &&& pteU = pteFlags pte &&& pteU := by
  rw [pteFlags, BitVec.and_assoc, show 0x3FF &&& pteU = pteU by decide]

theorem user_of_flags {pte : Word} (h : pteFlags pte = userPerm ||| pteV) : pte &&& pteU ≠ 0 := by
  rw [and_pteU, h]
  decide

theorem kalloc_nil {m : Machine} (hfree : m.free = []) : m.kalloc = (none, m) := by
  rw [Machine.kalloc, hfree]

/-- `kalloc` followed by a fill of the whole page. -/
theorem kalloc_cons {m : Machine} {page : ℕ} {free : List ℕ} (hfree : m.free = page :: free) :
    ∃ m₁, m.kalloc = (some page, m₁) ∧ m₁.free = free ∧
      (∀ content, m₁.fill page content = take m page free content) ∧
      ∀ other, other ≠ page → m₁.mem other = m.mem other := by
  refine ⟨_, by rw [Machine.kalloc, hfree], rfl, ?_, ?_⟩
  · intro content
    simp only [Machine.fill, take, Function.update_idem]
  · intro other hne
    exact fill_of_ne _ _ hne

/-- A page is allocated, filled and mapped; or the free list is empty; or the
tables for it are not to be had and the page is given back. -/
theorem acquire_spec {m : Machine} {S : Set ℕ} (h : Space m.mem root S)
    (hapart : Apart m (held m.mem root S)) {v : ℕ} (hv : v < 2 ^ 26)
    (hvacant : ¬ Valid (entry m.mem root v)) (content : Page) {flags : Word}
    (hflags : flags.toNat < 2 ^ 10) (hleaf : Leaf flags) :
    (∃ page m₁ m₂, m.kalloc = (some page, m₁) ∧
      mappages (m₁.fill page content) root (4096 * v) pgSize page flags = .ok (true, m₂) ∧
      Grow root S (insert v S) (missing m.mem root {v})
        (Function.update (entry m.mem root) v (pa2pte page ||| flags ||| pteV)) m m₂ ∧
      m.free.length = m₂.free.length + 1 + (missing m.mem root {v}).card ∧
      m₂.mem page = content ∧ page ∈ m.free ∧ page < 2 ^ 52 ∧
      ∀ other, other ≠ page → m₁.mem other = m.mem other) ∨
    (m.kalloc = (none, m) ∧ m.free.length = 0) ∨
    (∃ page m₁ m₂ added, m.kalloc = (some page, m₁) ∧
      mappages (m₁.fill page content) root (4096 * v) pgSize page flags = .ok (false, m₂) ∧
      Change root S S added (entry m.mem root) m (m₂.kfree page) ∧
      (m₂.kfree page).free.length + added.card = m.free.length ∧
      m.free.length < 1 + (missing m.mem root {v}).card ∧ page ∈ m.free ∧
      ∀ other, other ≠ page → m₁.mem other = m.mem other) := by
  cases hfree : m.free with
  | nil => exact Or.inr (Or.inl ⟨kalloc_nil hfree, rfl⟩)
  | cons page free =>
      obtain ⟨m₁, hkalloc, -, hfill, hother⟩ := kalloc_cons hfree
      obtain ⟨hspace₁, hapart₁, hentry₁, -, -, hnode₁, -, -, hbound⟩ :=
        take_spec h hapart hfree content
      have hmap := mappages_one (hspace₁.ready hapart₁) hv (by rwa [hentry₁]) hbound hleaf
        (show 4096 * v = v * 4096 by omega)
      have hlist : (take m page free content).free.length + 1 = m.free.length := by
        rw [hfree]
        rfl
      rw [hentry₁, missing_congr hnode₁, ← hfill] at hmap
      rw [← hfree]
      rcases hmap with ⟨m₂, hmap, hedit, -⟩ | ⟨added, m₂, hmap, hfree₂, hedit, hcard⟩
      · rw [hfill] at hedit
        have hnew : v ∉ S := fun hv => hvacant (h.mapped v hv)
        obtain ⟨hgrow, hcontent, -⟩ := Grow.map_page h hapart hfree hv hnew hflags hedit
        have hcount := hedit.count
        exact Or.inl ⟨page, m₁, m₂, hkalloc, hmap, hgrow, by omega, hcontent, by simp [hfree],
          hbound, hother⟩
      · rw [hfill] at hedit hcard
        obtain ⟨hback, hlength⟩ := Change.give_back h hapart hfree hedit
        exact Or.inr (Or.inr ⟨page, m₁, m₂, added, hkalloc, hmap, hback, hlength, by omega,
          by simp [hfree], hother⟩)

/-- One turn of the loop of `uvmalloc`: a page is added, or the roll-back
begins. -/
theorem uvmallocLoop_turn {v : ℕ} {m : Machine} {S : Set ℕ} (h : Space m.mem root S)
    (hapart : Apart m (held m.mem root S)) (hv : v < 2 ^ 26)
    (hvacant : ¬ Valid (entry m.mem root v)) (oldsz : ℕ) :
    (∃ page m', (∀ n, uvmallocLoop root oldsz (n + 1) (4096 * v) m
        = uvmallocLoop root oldsz n (4096 * (v + 1)) m') ∧ page < 2 ^ 52 ∧
      Grow root S (insert v S) (missing m.mem root {v})
        (Function.update (entry m.mem root) v (pa2pte page ||| userPerm ||| pteV)) m m' ∧
      m.free.length = m'.free.length + 1 + (missing m.mem root {v}).card) ∨
    (∃ m' added, (∀ n, uvmallocLoop root oldsz (n + 1) (4096 * v) m
        = (uvmdealloc m' root (4096 * v) oldsz).map fun result => (false, result.2)) ∧
      Change root S S added (entry m.mem root) m m' ∧
      m'.free.length + added.card = m.free.length ∧
      m.free.length < 1 + (missing m.mem root {v}).card) := by
  rcases acquire_spec h hapart hv hvacant (fun _ => 0) (show userPerm.toNat < 2 ^ 10 by decide)
    (show Leaf userPerm by decide) with
    ⟨page, m₁, m₂, hkalloc, hmap, hgrow, hcount, -, -, hbound, -⟩ | ⟨hkalloc, hnil⟩ |
    ⟨page, m₁, m₂, added, hkalloc, hmap, hback, hlength, hcard, -, -⟩
  · refine Or.inl ⟨page, m₂, ?_, hbound, hgrow, hcount⟩
    intro n
    rw [uvmallocLoop, hkalloc]
    simp only [Machine.zero]
    rw [show pteW ||| pteX ||| pteR ||| pteU = userPerm from rfl, hmap]
    rfl
  · refine Or.inr ⟨m, ∅, ?_, h.refl hapart, by simp, by omega⟩
    intro n
    rw [uvmallocLoop, hkalloc]
    cases uvmdealloc m root (4096 * v) oldsz <;> rfl
  · refine Or.inr ⟨m₂.kfree page, added, ?_, hback, hlength, hcard⟩
    intro n
    rw [uvmallocLoop, hkalloc]
    simp only [Machine.zero]
    rw [show pteW ||| pteX ||| pteR ||| pteU = userPerm from rfl, hmap]
    simp only [ok_bind, Bool.false_eq_true, if_false]
    cases uvmdealloc (m₂.kfree page) root (4096 * v) oldsz <;> rfl

theorem Ico_split (v n : ℕ) :
    Finset.Ico v (v + (n + 1)) = {v} ∪ Finset.Ico (v + 1) (v + 1 + n) := by
  ext vpn
  simp only [Finset.mem_Ico, Finset.mem_union, Finset.mem_singleton]
  omega

theorem insert_union_Ico (S : Set ℕ) (v n : ℕ) :
    insert v S ∪ Set.Ico (v + 1) (v + 1 + n) = S ∪ Set.Ico v (v + (n + 1)) := by
  ext vpn
  simp only [Set.mem_union, Set.mem_insert_iff, Set.mem_Ico]
  have hcases : (v ≤ vpn ∧ vpn < v + (n + 1)) ↔ (vpn = v ∨ (v + 1 ≤ vpn ∧ vpn < v + 1 + n)) := by
    omega
  rw [hcases]
  tauto

theorem insert_sdiff_Ico {S : Set ℕ} {v v₀ : ℕ} (hv₀ : v₀ ≤ v) (hnew : v ∉ S) :
    insert v S \ Set.Ico v₀ (v + 1) = S \ Set.Ico v₀ v := by
  ext vpn
  simp only [Set.mem_sdiff, Set.mem_insert_iff, Set.mem_Ico]
  constructor
  · rintro ⟨rfl | hvpn, hout⟩
    · exact absurd ⟨hv₀, by omega⟩ hout
    · exact ⟨hvpn, by omega⟩
  · rintro ⟨hvpn, hout⟩
    have hne : vpn ≠ v := fun heq => hnew (heq ▸ hvpn)
    exact ⟨Or.inr hvpn, by omega⟩

/-- The loop of `uvmalloc` over `n` pages from `v` on; the pages from `v₀` on were
added before. -/
theorem uvmallocLoop_spec {n v v₀ : ℕ} {m : Machine} {S : Set ℕ} (h : Space m.mem root S)
    (hapart : Apart m (held m.mem root S)) (hend : v + n ≤ 2 ^ 26)
    (hvacant : ∀ vpn, v ≤ vpn → vpn < v + n → entry m.mem root vpn = 0) (hv₀ : v₀ ≤ v)
    (hdone : ∀ vpn, v₀ ≤ vpn → vpn < v → vpn ∈ S) :
    (∃ m' map, uvmallocLoop root (v₀ * 4096) n (4096 * v) m = .ok (true, m') ∧
      Grow root S (S ∪ Set.Ico v (v + n)) (missing m.mem root (Finset.Ico v (v + n))) map m m' ∧
      m.free.length = m'.free.length + n + (missing m.mem root (Finset.Ico v (v + n))).card ∧
      (∀ vpn, vpn < 2 ^ 26 → vpn ∉ Set.Ico v (v + n) → map vpn = entry m.mem root vpn) ∧
      ∀ vpn ∈ Set.Ico v (v + n), pteFlags (map vpn) = userPerm ||| pteV) ∨
    (∃ m' added, uvmallocLoop root (v₀ * 4096) n (4096 * v) m = .ok (false, m') ∧
      Change root S (S \ Set.Ico v₀ v) added (clearMap (entry m.mem root) v₀ (v - v₀)) m m' ∧
      m'.free.length + added.card = m.free.length + (v - v₀) ∧
      m.free.length < n + (missing m.mem root (Finset.Ico v (v + n))).card) := by
  induction n generalizing v m S with
  | zero =>
      have hnone : Set.Ico v (v + 0) = ∅ := Set.Ico_eq_empty (by omega)
      have hmissing : missing m.mem root (Finset.Ico v (v + 0)) = ∅ := by simp [missing]
      rw [hnone, Set.union_empty, hmissing]
      exact Or.inl ⟨m, entry m.mem root, rfl, Grow.refl h hapart, by simp, fun _ _ _ => rfl,
        by simp⟩
  | succ n ih =>
      have hv : v < 2 ^ 26 := by omega
      have hzero := hvacant v (by omega) (by omega)
      have hnot : ¬ Valid (entry m.mem root v) := by
        rw [hzero]
        exact not_valid_zero
      rw [Ico_split]
      rcases uvmallocLoop_turn h hapart hv hnot (v₀ * 4096) with
        ⟨page, m₁, hstep, hbound, hgrow, hcount⟩ | ⟨m₁, added, hstep, hback, hcount, hcard⟩
      · have hentry₁ : ∀ vpn, vpn < 2 ^ 26 → vpn ≠ v →
            entry m₁.mem root vpn = entry m.mem root vpn := by
          intro vpn hvpn hne
          rw [hgrow.entry_eq vpn hvpn, Function.update_of_ne hne]
        have hvacant₁ : ∀ vpn, v + 1 ≤ vpn → vpn < v + 1 + n → entry m₁.mem root vpn = 0 := by
          intro vpn hlo hhi
          rw [hentry₁ vpn (by omega) (by omega)]
          exact hvacant vpn (by omega) (by omega)
        have hdone₁ : ∀ vpn, v₀ ≤ vpn → vpn < v + 1 → vpn ∈ insert v S := by
          intro vpn hlo hhi
          by_cases heq : vpn = v
          · exact Or.inl heq
          · exact Or.inr (hdone vpn hlo (by omega))
        obtain ⟨hunion, hsum⟩ := hgrow.toAdds.missing_card (Finset.Ico (v + 1) (v + 1 + n))
        rw [hstep, hsum, hunion]
        rcases ih hgrow.space (hgrow.toChange.apart hapart) (show v + 1 + n ≤ 2 ^ 26 by omega)
          hvacant₁ (show v₀ ≤ v + 1 by omega) hdone₁ with
          ⟨m', map, hloop, hgrow', hlength, hout, hin⟩ | ⟨m', added', hloop, hback, hlength, hcard⟩
        · have hboth := hgrow.trans hgrow'
          rw [insert_union_Ico] at hboth
          refine Or.inl ⟨m', map, hloop, hboth, by omega, ?_, ?_⟩
          · intro vpn hvpn hnotin
            rw [Set.mem_Ico] at hnotin
            rw [hout vpn hvpn (by rw [Set.mem_Ico]; omega), hentry₁ vpn hvpn (by omega)]
          · intro vpn hvpn
            rw [Set.mem_Ico] at hvpn
            by_cases heq : vpn = v
            · subst heq
              rw [hout vpn hv (by rw [Set.mem_Ico]; omega), hgrow.entry_eq vpn hv,
                Function.update_self, BitVec.or_assoc]
              exact pteFlags_entry hbound (by decide)
            · exact hin vpn (by rw [Set.mem_Ico]; omega)
        · have hnew : v ∉ S := fun hmem => hnot (h.mapped v hmem)
          have hboth := hgrow.toChange.trans hback
          rw [insert_sdiff_Ico hv₀ hnew] at hboth
          have hdisjoint := hgrow.toAdds.disjoint hback.toAdds
          refine Or.inr ⟨m', _, hloop, hboth.congr ?_, ?_, by omega⟩
          · intro vpn hvpn
            simp only [clearMap]
            by_cases heq : vpn = v
            · subst heq
              rw [if_pos (by omega), if_neg (by omega), hzero]
            · rw [hentry₁ vpn hvpn heq]
              by_cases hin : v₀ ≤ vpn ∧ vpn < v₀ + (v - v₀)
              · rw [if_pos (by omega), if_pos hin]
              · rw [if_neg (by omega), if_neg hin]
          · rw [Finset.card_union_of_disjoint hdisjoint]
            omega
      · -- The roll-back unmaps the pages added so far.
        obtain ⟨m', sz, hdealloc, hlength, hchange⟩ := uvmdealloc_pages hback.space
          (hback.apart hapart) (show 4096 * v < 2 ^ 63 by omega) hdone
        have hboth := hback.trans hchange
        rw [Finset.union_empty] at hboth
        refine Or.inr ⟨m', added, ?_, hboth.congr ?_, by omega, ?_⟩
        · rw [hstep, hdealloc]
          rfl
        · intro vpn hvpn
          simp only [clearMap, hback.entry_eq vpn hvpn]
        · have hle := card_missing_le m.mem root {v} (Finset.Ico (v + 1) (v + 1 + n))
          omega

/-- The pages above a rounded size up to another size. -/
theorem npages_eq (n newsz : ℕ) :
    (newsz - n * 4096 + (pgSize - 1)) / pgSize = pages newsz - n := by
  rw [pgSize, pages]
  omega

theorem uvmalloc_eq_loop {m : Machine} {oldsz newsz : ℕ} (hle : oldsz ≤ newsz)
    (hold : oldsz < 2 ^ 63) : uvmalloc m root oldsz newsz
      = (uvmallocLoop root (pages oldsz * 4096) (pages newsz - pages oldsz)
        (4096 * pages oldsz) m).map fun result => (if result.1 then newsz else 0, result.2) := by
  rw [uvmalloc, if_neg (by omega)]
  simp only [pgRoundUp_pages hold, npages_eq, Nat.mul_comm 4096 (pages oldsz)]
  cases uvmallocLoop root (pages oldsz * 4096) (pages newsz - pages oldsz)
    (pages oldsz * 4096) m <;> rfl

/-- `uvmalloc` grows the space, or leaves it as it was but for new tables. -/
theorem uvmalloc_spec {m : Machine} {S : Set ℕ} {oldsz newsz : ℕ} (h : Space m.mem root S)
    (hapart : Apart m (held m.mem root S)) (hle : oldsz ≤ newsz) (hend : newsz ≤ 2 ^ 38)
    (hvacant : ∀ vpn, pages oldsz ≤ vpn → vpn < pages newsz → entry m.mem root vpn = 0) :
    (∃ m' map, uvmalloc m root oldsz newsz = .ok (newsz, m') ∧
      Grow root S (S ∪ Set.Ico (pages oldsz) (pages newsz))
        (missing m.mem root (Finset.Ico (pages oldsz) (pages newsz))) map m m' ∧
      m.free.length = m'.free.length + (pages newsz - pages oldsz)
        + (missing m.mem root (Finset.Ico (pages oldsz) (pages newsz))).card ∧
      (∀ vpn, vpn < 2 ^ 26 → vpn ∉ Set.Ico (pages oldsz) (pages newsz) →
        map vpn = entry m.mem root vpn) ∧
      ∀ vpn ∈ Set.Ico (pages oldsz) (pages newsz), pteFlags (map vpn) = userPerm ||| pteV) ∨
    (∃ m' added, uvmalloc m root oldsz newsz = .ok (0, m') ∧
      Change root S S added (entry m.mem root) m m' ∧
      m'.free.length + added.card = m.free.length ∧
      m.free.length < (pages newsz - pages oldsz)
        + (missing m.mem root (Finset.Ico (pages oldsz) (pages newsz))).card) := by
  have hpages := pages_mono hle
  have hsum : pages oldsz + (pages newsz - pages oldsz) = pages newsz := by omega
  have hlast : pages newsz ≤ 2 ^ 26 := by
    rw [pages]
    omega
  have hloop := uvmallocLoop_spec (n := pages newsz - pages oldsz) h hapart (by omega)
    (by rw [hsum]; exact hvacant) (le_refl (pages oldsz)) (fun vpn hlo hhi => by omega)
  rw [hsum, Nat.sub_self, clearMap_zero, Set.Ico_self, Set.sdiff_empty, Nat.add_zero] at hloop
  rw [uvmalloc_eq_loop hle (show oldsz < 2 ^ 63 by omega)]
  rcases hloop with ⟨m', map, hloop, hrest⟩ | ⟨m', added, hloop, hrest⟩
  · refine Or.inl ⟨m', map, ?_, hrest⟩
    rw [hloop]
    rfl
  · refine Or.inr ⟨m', added, ?_, hrest⟩
    rw [hloop]
    rfl

/-- A turn of the loop of `uvmalloc` goes on to the next page, or ends the loop
without success. -/
theorem uvmallocLoop_step (oldsz a : ℕ) (m : Machine) :
    (∃ m₁, ∀ n, uvmallocLoop root oldsz (n + 1) a m
      = uvmallocLoop root oldsz n (a + pgSize) m₁) ∨
    (∃ r, (∀ n, uvmallocLoop root oldsz (n + 1) a m = r) ∧ ∀ m', r ≠ .ok (true, m')) := by
  simp only [uvmallocLoop]
  cases m.kalloc with
  | mk page m₁ =>
      cases page with
      | none =>
          refine Or.inr ⟨_, fun _ => rfl, ?_⟩
          intro m' heq
          cases hdealloc : uvmdealloc m root a oldsz <;> rw [hdealloc] at heq <;> cases heq
      | some page =>
          simp only
          cases mappages (m₁.zero page) root a pgSize page (pteW ||| pteX ||| pteR ||| pteU) with
          | error e => exact Or.inr ⟨.error e, fun _ => rfl, by simp⟩
          | ok result =>
              obtain ⟨ok, m₂⟩ := result
              cases ok with
              | true => exact Or.inl ⟨m₂, fun _ => rfl⟩
              | false =>
                  refine Or.inr ⟨_, fun _ => rfl, ?_⟩
                  intro m' heq
                  change uvmdealloc (m₂.kfree page) root a oldsz >>= _ = _ at heq
                  cases hdealloc : uvmdealloc (m₂.kfree page) root a oldsz <;>
                    rw [hdealloc] at heq <;> cases heq

/-- A loop that fails does not get to the pages after those it fails at. -/
theorem uvmallocLoop_more {n n' a oldsz : ℕ} {m m' : Machine} (hle : n ≤ n')
    (hfail : uvmallocLoop root oldsz n a m = .ok (false, m')) :
    uvmallocLoop root oldsz n' a m = .ok (false, m') := by
  induction n generalizing n' a m with
  | zero => cases hfail
  | succ n ih =>
      obtain ⟨n', rfl⟩ := Nat.exists_eq_add_of_le' (show 1 ≤ n' by omega)
      rcases uvmallocLoop_step oldsz a m with ⟨m₁, hstep⟩ | ⟨r, hstep, -⟩
      · rw [hstep] at hfail ⊢
        exact ih (by omega) hfail
      · rw [hstep] at hfail ⊢
        exact hfail

/-- A loop that succeeds goes on behind its last page. -/
theorem uvmallocLoop_add {n a oldsz : ℕ} {m m' : Machine}
    (hok : uvmallocLoop root oldsz n a m = .ok (true, m')) (rest : ℕ) :
    uvmallocLoop root oldsz (n + rest) a m
      = uvmallocLoop root oldsz rest (a + n * pgSize) m' := by
  induction n generalizing a m with
  | zero =>
      cases hok
      rw [Nat.zero_add, Nat.zero_mul, Nat.add_zero]
  | succ n ih =>
      rcases uvmallocLoop_step oldsz a m with ⟨m₁, hstep⟩ | ⟨r, hstep, hfail⟩
      · rw [hstep] at hok
        rw [Nat.add_right_comm, hstep, ih hok, Nat.succ_mul, Nat.add_comm (n * pgSize),
          Nat.add_assoc]
      · rw [hstep] at hok
        exact absurd hok (hfail m')

theorem Iio_sdiff_Ico {a b : ℕ} (h : a ≤ b) : Set.Iio b \ Set.Ico a b = Set.Iio a := by
  ext vpn
  simp only [Set.mem_sdiff, Set.mem_Iio, Set.mem_Ico]
  omega

/-- `uvmalloc` beyond a page `limit` that is in use: the free pages give out, and those mapped
so far are given back; or `mappages` panics at that page. -/
theorem uvmalloc_past {m : Machine} {oldsz newsz limit : ℕ}
    (h : Space m.mem root (Set.Iio (pages oldsz)))
    (hapart : Apart m (held m.mem root (Set.Iio (pages oldsz)))) (hle : oldsz ≤ newsz)
    (hpast : limit < pages newsz) (htop : pages oldsz ≤ limit) (hlimit : limit < 2 ^ 26)
    (hvacant : ∀ vpn, pages oldsz ≤ vpn → vpn < limit → entry m.mem root vpn = 0)
    (hused : Valid (entry m.mem root limit)) :
    (∃ m' added, uvmalloc m root oldsz newsz = .ok (0, m') ∧
      Change root (Set.Iio (pages oldsz)) (Set.Iio (pages oldsz)) added (entry m.mem root) m m' ∧
      m'.free.length + added.card = m.free.length) ∨
    (limit < m.free.length + pages oldsz ∧ ∃ e, uvmalloc m root oldsz newsz = .error e) := by
  have hold : oldsz < 2 ^ 63 := by
    rw [pages] at htop
    omega
  -- The loop gets to `limit` at most.
  obtain ⟨rest, hrest⟩ : ∃ rest, pages newsz - pages oldsz = limit - pages oldsz + (rest + 1) :=
    ⟨pages newsz - limit - 1, by omega⟩
  have hsum : pages oldsz + (limit - pages oldsz) = limit := by omega
  have hloop := uvmallocLoop_spec (n := limit - pages oldsz) h hapart (by omega)
    (fun vpn hlo hhi => hvacant vpn hlo (by omega)) (le_refl (pages oldsz))
    (fun vpn hlo hhi => by omega)
  rw [Nat.sub_self, clearMap_zero, Set.Ico_self, Set.sdiff_empty, Nat.add_zero, hsum,
    Set.Iio_union_Ico_eq_Iio htop] at hloop
  rw [uvmalloc_eq_loop hle hold]
  rcases hloop with ⟨m₁, map, hloop, hgrow, hcount, hout, -⟩ |
    ⟨m', added, hloop, hchange, hcount, -⟩
  · have haddr : 4096 * pages oldsz + (limit - pages oldsz) * pgSize = 4096 * limit := by
      rw [pgSize]
      omega
    rw [hrest, uvmallocLoop_add hloop, haddr]
    have hapart₁ := hgrow.toChange.apart hapart
    by_cases hfree : m₁.free = []
    · -- No page is left, and those mapped so far are given back.
      obtain ⟨m', sz, hdealloc, hlength, hchange⟩ := uvmdealloc_pages hgrow.space hapart₁
        (show 4096 * limit < 2 ^ 63 by omega)
        (show ∀ vpn, pages oldsz ≤ vpn → vpn < limit → vpn ∈ Set.Iio limit from
          fun vpn _ hhi => hhi)
      have hboth := hgrow.toChange.trans hchange
      rw [Iio_sdiff_Ico htop, Finset.union_empty] at hboth
      refine Or.inl ⟨m', _, ?_, hboth.congr ?_, ?_⟩
      · rw [uvmallocLoop, kalloc_nil hfree]
        simp only [hdealloc, ok_bind]
        rfl
      · intro vpn hvpn
        rw [clearMap]
        by_cases hin : pages oldsz ≤ vpn ∧ vpn < limit
        · rw [if_pos (by omega), hvacant vpn hin.1 hin.2]
        · rw [if_neg (by omega), hgrow.entry_eq vpn hvpn, hout vpn hvpn hin]
      · rw [hfree, List.length_nil] at hlength hcount
        omega
    · -- With a page at hand, `mappages` panics.
      obtain ⟨page, free, hcons⟩ := List.exists_cons_of_ne_nil hfree
      obtain ⟨m₂, hkalloc, -, hfill, -⟩ := kalloc_cons hcons
      obtain ⟨-, -, hentry, -⟩ := take_spec hgrow.space hapart₁ hcons fun _ => 0
      have hstuck : Valid (entry (take m₁ page free fun _ => 0).mem root limit) := by
        rw [hentry, hgrow.entry_eq limit hlimit, hout limit hlimit (by simp)]
        exact hused
      rw [← hfill] at hstuck
      obtain ⟨e, hmap⟩ := mappages_stuck (Or.inr hstuck) page (pteW ||| pteX ||| pteR ||| pteU)
      refine Or.inr ⟨?_, e, ?_⟩
      · rw [hcons, List.length_cons] at hcount
        omega
      · rw [uvmallocLoop, hkalloc]
        simp only [Machine.zero, hmap, error_bind]
        rfl
  · refine Or.inl ⟨m', added, ?_, hchange, hcount⟩
    rw [uvmallocLoop_more (by omega) hloop]
    rfl

/-- `uvmalloc` of any size, below a page `limit` that is in use: the space grows, or
stays as it was but for new tables, or `mappages` panics at that page. -/
theorem uvmalloc_below {m : Machine} {oldsz newsz limit : ℕ}
    (h : Space m.mem root (Set.Iio (pages oldsz)))
    (hapart : Apart m (held m.mem root (Set.Iio (pages oldsz)))) (hle : oldsz ≤ newsz)
    (htop : pages oldsz ≤ limit) (hlimit : limit < 2 ^ 26)
    (hvacant : ∀ vpn, pages oldsz ≤ vpn → vpn < limit → entry m.mem root vpn = 0)
    (hused : Valid (entry m.mem root limit)) :
    (∃ m' map, uvmalloc m root oldsz newsz = .ok (newsz, m') ∧ pages newsz ≤ limit ∧
      Grow root (Set.Iio (pages oldsz)) (Set.Iio (pages newsz))
        (missing m.mem root (Finset.Ico (pages oldsz) (pages newsz))) map m m' ∧
      m.free.length = m'.free.length + (pages newsz - pages oldsz)
        + (missing m.mem root (Finset.Ico (pages oldsz) (pages newsz))).card ∧
      (∀ vpn, vpn < 2 ^ 26 → vpn ∉ Set.Ico (pages oldsz) (pages newsz) →
        map vpn = entry m.mem root vpn) ∧
      ∀ vpn ∈ Set.Ico (pages oldsz) (pages newsz), pteFlags (map vpn) = userPerm ||| pteV) ∨
    (∃ m' added, uvmalloc m root oldsz newsz = .ok (0, m') ∧
      Change root (Set.Iio (pages oldsz)) (Set.Iio (pages oldsz)) added (entry m.mem root) m m' ∧
      m'.free.length + added.card = m.free.length ∧
      (pages newsz ≤ limit → m.free.length < (pages newsz - pages oldsz)
        + (missing m.mem root (Finset.Ico (pages oldsz) (pages newsz))).card)) ∨
    (limit < m.free.length + pages oldsz ∧ limit < pages newsz ∧
      ∃ e, uvmalloc m root oldsz newsz = .error e) := by
  by_cases hfits : pages newsz ≤ limit
  · rcases uvmalloc_spec h hapart hle (show newsz ≤ 2 ^ 38 by rw [pages] at hfits; omega)
      (fun vpn hlo hhi => hvacant vpn hlo (by omega)) with
      ⟨m', map, halloc, hgrow, hcount, hout, hin⟩ | ⟨m', added, halloc, hchange, hcount, hshort⟩
    · rw [Set.Iio_union_Ico_eq_Iio (pages_mono hle)] at hgrow
      exact Or.inl ⟨m', map, halloc, hfits, hgrow, hcount, hout, hin⟩
    · exact Or.inr (Or.inl ⟨m', added, halloc, hchange, hcount, fun _ => hshort⟩)
  · rcases uvmalloc_past h hapart hle (Nat.lt_of_not_le hfits) htop hlimit hvacant hused with
      ⟨m', added, halloc, hchange, hcount⟩ | ⟨hroom, e, halloc⟩
    · exact Or.inr (Or.inl ⟨m', added, halloc, hchange, hcount, fun hle => absurd hle hfits⟩)
    · exact Or.inr (Or.inr ⟨hroom, Nat.lt_of_not_le hfits, e, halloc⟩)

end Uvmalloc

end OperateSystem.Vm
