import OperateSystem.Vm.Copy
import OperateSystem.Vm.Ranges

/-!
# Rolling back

`uvmalloc`, `uvmcopy` and `kvmcopy` map one page after the other and undo what they
have done when a page is not to be had.  The first two unmap exactly the pages they
have mapped; `kvmcopy` may start at any size, and unmaps from address 0 on.
-/

namespace OperateSystem.Vm

open OperateSystem.PointerTree

/-- The valid mappings of a page table. -/
def mappings (mem : ℕ → Page) (root : ℕ) : Set (ℕ × Word) :=
  { mapping | mapping.1 < 2 ^ 26 ∧ entry mem root mapping.1 = mapping.2 ∧ Valid mapping.2 }

/-- A failed call leaves the valid mappings as they were, and every page it has taken
is back on the free list once, but for new tables. -/
structure Restored (root : ℕ) (m m' : Machine) : Prop where
  same : mappings m'.mem root = mappings m.mem root
  moves : Moves (tables m.mem root) (tables m'.mem root) m m'

/-- The words of a map stay, or are cleared where they were not valid. -/
def Fades (map map' : ℕ → Word) : Prop :=
  ∀ vpn, vpn < 2 ^ 26 → map' vpn = map vpn ∨ (¬ Valid (map vpn) ∧ map' vpn = 0)

section Fades

variable {map map' map'' : ℕ → Word}

theorem Fades.of_eq (h : ∀ vpn, vpn < 2 ^ 26 → map' vpn = map vpn) : Fades map map' :=
  fun vpn hvpn => Or.inl (h vpn hvpn)

theorem Fades.trans (h : Fades map map') (h' : Fades map' map'') : Fades map map'' := by
  intro vpn hvpn
  rcases h' vpn hvpn with hsame' | ⟨hnot', hzero'⟩
  · rw [hsame']
    exact h vpn hvpn
  · rcases h vpn hvpn with hsame | ⟨hnot, -⟩
    · rw [hsame] at hnot'
      exact Or.inr ⟨hnot', hzero'⟩
    · exact Or.inr ⟨hnot, hzero'⟩

theorem Fades.mappings_eq {mem mem' : ℕ → Page} {root : ℕ}
    (h : Fades (entry mem root) (entry mem' root)) : mappings mem' root = mappings mem root := by
  ext ⟨vpn, word⟩
  simp only [mappings, Set.mem_ofPred_eq]
  apply and_congr_right
  intro hvpn
  rcases h vpn hvpn with hsame | ⟨hnot, hzero⟩
  · rw [hsame]
  · rw [hzero]
    constructor
    · rintro ⟨rfl, hvalid⟩
      exact absurd hvalid not_valid_zero
    · rintro ⟨rfl, hvalid⟩
      exact absurd hvalid hnot

/-- Clearing one page more, which was not mapped to begin with. -/
theorem Fades.clear_succ {lo n : ℕ} (hlo : lo ≤ n) (hnot : ¬ Valid (map n))
    (hmap : ∀ vpn, vpn < 2 ^ 26 → vpn ≠ n → map' vpn = map vpn) :
    Fades (clearMap map lo (n - lo)) (clearMap map' lo (n + 1 - lo)) := by
  intro vpn hvpn
  simp only [clearMap]
  by_cases heq : vpn = n
  · subst heq
    rw [if_pos (by omega), if_neg (by omega)]
    exact Or.inr ⟨hnot, rfl⟩
  · by_cases hin : lo ≤ vpn ∧ vpn < n
    · rw [if_pos (by omega), if_pos (by omega)]
      exact Or.inl rfl
    · rw [if_neg (by omega), if_neg (by omega)]
      exact Or.inl (hmap vpn hvpn heq)

end Fades

section Uvmalloc

variable {root : ℕ} {m m' : Machine}

/-- The roll-back of `uvmalloc` at page `v`, when the pages from `v₀` on are its own. -/
theorem uvmdealloc_own {v v₀ : ℕ} (h : Space m.mem root (Set.Ico v₀ v))
    (hapart : Apart m (held m.mem root (Set.Ico v₀ v))) (hle : v₀ ≤ v) :
    ∃ m' sz, uvmdealloc m root (4096 * v) (v₀ * 4096) = .ok (sz, m') ∧
      Change root (Set.Ico v₀ v) ∅ ∅ (clearMap (entry m.mem root) v₀ (v - v₀)) m m' := by
  by_cases heq : v = v₀
  · subst heq
    refine ⟨m, 4096 * v, dealloc_of_le true (by omega), ?_⟩
    rw [Nat.sub_self, clearMap_zero]
    have hrefl := h.refl hapart
    rw [Set.Ico_self] at hrefl ⊢
    exact hrefl
  · have hsmall := h.small (v - 1) (by rw [Set.mem_Ico]; omega)
    obtain ⟨m', sz, hdealloc, -, hchange⟩ := uvmdealloc_pages h hapart
      (show 4096 * v < 2 ^ 63 by omega) fun vpn hlo hhi => ⟨hlo, hhi⟩
    rw [Set.sdiff_self] at hchange
    exact ⟨m', sz, hdealloc, hchange⟩

/-- When the loop of `uvmalloc` fails, the pages it has mapped from `v₀` on are given
back. -/
theorem uvmallocLoop_restores {n v v₀ : ℕ} (h : Space m.mem root (Set.Ico v₀ v))
    (hapart : Apart m (held m.mem root (Set.Ico v₀ v))) (hle : v₀ ≤ v)
    (hfail : uvmallocLoop root (v₀ * 4096) n (4096 * v) m = .ok (false, m')) :
    ∃ added map, Change root (Set.Ico v₀ v) ∅ added map m m' ∧
      Fades (clearMap (entry m.mem root) v₀ (v - v₀)) map := by
  induction n generalizing v m with
  | zero => cases hfail
  | succ n ih =>
      by_cases hfree : m.free = []
      · obtain ⟨m₁, sz, hdealloc, hchange⟩ := uvmdealloc_own h hapart hle
        rw [uvmallocLoop, kalloc_nil hfree] at hfail
        simp only [hdealloc, ok_bind] at hfail
        cases hfail
        exact ⟨∅, _, hchange, Fades.of_eq fun _ _ => rfl⟩
      · by_cases hstuck : 2 ^ 26 ≤ v ∨ Valid (entry m.mem root v)
        · -- With a page at hand, `mappages` panics.
          exfalso
          obtain ⟨page, free, hcons⟩ := List.exists_cons_of_ne_nil hfree
          obtain ⟨m₁, hkalloc, -, hfill, -⟩ := kalloc_cons hcons
          obtain ⟨-, -, hentry, -⟩ := take_spec h hapart hcons fun _ => 0
          rw [← hentry, ← hfill] at hstuck
          obtain ⟨e, hmap⟩ := mappages_stuck hstuck page (pteW ||| pteX ||| pteR ||| pteU)
          rw [uvmallocLoop, hkalloc] at hfail
          simp only [Machine.zero, hmap, error_bind] at hfail
          cases hfail
        · rw [not_or, not_le] at hstuck
          obtain ⟨hv, hnot⟩ := hstuck
          have hnew : v ∉ Set.Ico v₀ v := fun hmem => lt_irrefl v hmem.2
          rcases uvmallocLoop_turn h hapart hv hnot (v₀ * 4096) with
            ⟨page, m₁, hstep, -, hgrow, -⟩ | ⟨m₁, added, hstep, hback, -, -⟩
          · have hsets : insert v (Set.Ico v₀ v) = Set.Ico v₀ (v + 1) := by
              ext vpn
              simp only [Set.mem_insert_iff, Set.mem_Ico]
              omega
            rw [hsets] at hgrow
            rw [hstep] at hfail
            obtain ⟨added, map, hchange, hfades⟩ := ih hgrow.space
              (hgrow.toChange.apart hapart) (by omega) hfail
            refine ⟨_, map, hgrow.toChange.trans hchange, ?_⟩
            refine Fades.trans (Fades.clear_succ hle hnot ?_) hfades
            intro vpn hvpn hne
            rw [hgrow.entry_eq vpn hvpn, Function.update_of_ne hne]
          · obtain ⟨m₂, sz, hdealloc, hchange⟩ := uvmdealloc_own hback.space
              (hback.apart hapart) hle
            rw [hstep, hdealloc] at hfail
            cases hfail
            refine ⟨_, _, hback.trans hchange, Fades.of_eq ?_⟩
            intro vpn hvpn
            simp only [clearMap, hback.entry_eq vpn hvpn]

/-- A change that begins and ends without pages restores the table. -/
theorem Change.restored {added : Finset (List (Fin 512))} {map : ℕ → Word}
    (h : Change root ∅ ∅ added map m m') (hfades : Fades (entry m.mem root) map) :
    Restored root m m' := by
  constructor
  · apply Fades.mappings_eq
    intro vpn hvpn
    rw [h.entry_eq vpn hvpn]
    exact hfades vpn hvpn
  · have hmoves := h.moves
    rwa [held_empty, held_empty] at hmoves

/-- A table that owns nothing. -/
theorem Ready.space (h : Ready m root) : Space m.mem root ∅ ∧ Apart m (held m.mem root ∅) := by
  rw [held_empty]
  exact ⟨Space.of_table h.table, h.toApart⟩

/-- Whenever `uvmalloc` returns 0, the table is as before. -/
theorem uvmalloc_restores {oldsz newsz : ℕ} (h : Ready m root)
    (hfail : uvmalloc m root oldsz newsz = .ok (0, m')) : Restored root m m' := by
  obtain ⟨hspace, hapart⟩ := h.space
  have hrefl : Restored root m m := ⟨rfl, Moves.refl h.toApart⟩
  rw [uvmalloc] at hfail
  split at hfail
  · cases hfail
    exact hrefl
  · obtain ⟨v₀, hv₀⟩ : ∃ v₀, pgRoundUp oldsz = v₀ * 4096 := ⟨_, rfl⟩
    simp only [hv₀] at hfail
    cases hloop : uvmallocLoop root (v₀ * 4096) ((newsz - v₀ * 4096 + (pgSize - 1)) / pgSize)
      (v₀ * 4096) m with
    | error e =>
        rw [hloop] at hfail
        cases hfail
    | ok result =>
        obtain ⟨ok, m₁⟩ := result
        rw [hloop] at hfail
        cases ok with
        | true =>
            -- It was asked for nothing and has done nothing.
            have hresult : newsz = 0 ∧ m₁ = m' := by
              have heq := Prod.mk.inj (Except.ok.inj hfail)
              exact heq
            obtain ⟨rfl, rfl⟩ := hresult
            have hnone : (0 - v₀ * 4096 + (pgSize - 1)) / pgSize = 0 := by
              rw [pgSize]
              omega
            rw [hnone, uvmallocLoop] at hloop
            cases hloop
            exact hrefl
        | false =>
            cases hfail
            rw [← Set.Ico_self v₀] at hspace hapart
            obtain ⟨added, map, hchange, hfades⟩ := uvmallocLoop_restores hspace hapart le_rfl
              (by rw [Nat.mul_comm 4096 v₀]; exact hloop)
            rw [Nat.sub_self, clearMap_zero] at hfades
            rw [Set.Ico_self] at hchange
            exact hchange.restored hfades

end Uvmalloc

section Uvmcopy

variable {old new : ℕ} {m m' : Machine}

/-- Both copies panic at a page that the source does not map. -/
theorem copyLoops_stuck {v : ℕ} (h : ¬ (v < 2 ^ 26 ∧ Valid (entry m.mem old v))) (new n : ℕ) :
    (∃ e, uvmcopyLoop old new (n + 1) (4096 * v) m = .error e) ∧
      ∃ e, kvmcopyLoop old new (n + 1) (4096 * v) m = .error e := by
  rw [uvmcopyLoop, kvmcopyLoop]
  by_cases hv : v < 2 ^ 26
  · have hfind := find_eq m old hv (show 0 < 4096 by decide)
    rw [Nat.add_zero] at hfind
    have hnot : ¬ Valid (entry m.mem old v) := fun hvalid => h ⟨hv, hvalid⟩
    rw [hfind]
    cases hnode : node next m.mem old (pathOf v) with
    | none => exact ⟨⟨_, rfl⟩, _, rfl⟩
    | some table =>
        rw [entry_of_node hnode] at hnot
        simp only [Option.map_some, ok_bind, hnot, not_false_eq_true, if_true]
        exact ⟨⟨_, rfl⟩, _, rfl⟩
  · rw [find_high m old (Nat.le_of_not_lt hv)]
    exact ⟨⟨_, rfl⟩, _, rfl⟩

/-- The roll-back of `uvmcopy` at page `v`. -/
theorem uvmunmap_own {v : ℕ} (h : Space m.mem new (Set.Ico 0 v))
    (hapart : Apart m (held m.mem new (Set.Ico 0 v))) :
    ∃ m', uvmunmap m new 0 v true = .ok m' ∧
      Change new (Set.Ico 0 v) ∅ ∅ (clearMap (entry m.mem new) 0 v) m m' := by
  obtain ⟨m', hunmap, -, hchange⟩ := uvmunmap_free (show 0 = 0 * 4096 by rfl) h hapart
    (show ∀ vpn, 0 ≤ vpn → vpn < 0 + v → vpn ∈ Set.Ico 0 v from
      fun vpn hlo hhi => ⟨hlo, by omega⟩)
  rw [Nat.zero_add, Set.sdiff_self] at hchange
  exact ⟨m', hunmap, hchange⟩

/-- When the loop of `uvmcopy` fails, the copies of the pages below are given back. -/
theorem uvmcopyLoop_restores {n v : ℕ} (hnew : Space m.mem new (Set.Ico 0 v))
    (hapart : Apart m (held m.mem new (Set.Ico 0 v))) (hold : Table m.mem old)
    (haway : Away (tables m.mem old) (held m.mem new (Set.Ico 0 v)) m)
    (hvacant : ∀ vpn, v ≤ vpn → vpn < v + n → vpn < 2 ^ 26 → ¬ Valid (entry m.mem new vpn))
    (hfail : uvmcopyLoop old new n (4096 * v) m = .ok (false, m')) :
    ∃ added map, Change new (Set.Ico 0 v) ∅ added map m m' ∧
      Fades (clearMap (entry m.mem new) 0 v) map := by
  induction n generalizing v m with
  | zero => cases hfail
  | succ n ih =>
      by_cases hsource : v < 2 ^ 26 ∧ Valid (entry m.mem old v)
      · obtain ⟨hv, hvalid⟩ := hsource
        have hnot := hvacant v le_rfl (by omega) hv
        rcases uvmcopyLoop_turn hnew hapart hold hv hvalid hnot with
          ⟨page, m₁, hstep, -, hgrow, -⟩ | ⟨m₁, added, hstep, hback, -, -⟩
        · have hsets : insert v (Set.Ico 0 v) = Set.Ico 0 (v + 1) := by
            ext vpn
            simp only [Set.mem_insert_iff, Set.mem_Ico]
            omega
          rw [hsets] at hgrow
          rw [hstep] at hfail
          obtain ⟨haway₁, hframe⟩ := hgrow.moves.away haway
          rw [← tables_frame hframe] at haway₁
          have hentry : ∀ vpn, vpn < 2 ^ 26 → vpn ≠ v →
              entry m₁.mem new vpn = entry m.mem new vpn := by
            intro vpn hvpn hne
            rw [hgrow.entry_eq vpn hvpn, Function.update_of_ne hne]
          have hvacant₁ : ∀ vpn, v + 1 ≤ vpn → vpn < v + 1 + n → vpn < 2 ^ 26 →
              ¬ Valid (entry m₁.mem new vpn) := by
            intro vpn hlo hhi hvpn
            rw [hentry vpn hvpn (by omega)]
            exact hvacant vpn (by omega) (by omega) hvpn
          obtain ⟨added, map, hchange, hfades⟩ := ih hgrow.space (hgrow.toChange.apart hapart)
            (hold.frame hframe) haway₁ hvacant₁ hfail
          refine ⟨_, map, hgrow.toChange.trans hchange, Fades.trans ?_ hfades⟩
          exact Fades.clear_succ (Nat.zero_le v) hnot hentry
        · obtain ⟨m₂, hunmap, hchange⟩ := uvmunmap_own hback.space (hback.apart hapart)
          rw [hstep, hunmap] at hfail
          cases hfail
          refine ⟨_, _, hback.trans hchange, Fades.of_eq ?_⟩
          intro vpn hvpn
          simp only [clearMap, hback.entry_eq vpn hvpn]
      · obtain ⟨e, herror⟩ := (copyLoops_stuck hsource new n).1
        rw [herror] at hfail
        cases hfail

/-- Whenever `uvmcopy` returns -1, the table is as before. -/
theorem uvmcopy_restores {sz : ℕ} (hnew : Ready m new) (hold : Table m.mem old)
    (haway : Away (tables m.mem old) (tables m.mem new) m)
    (hvacant : ∀ vpn, vpn < pages sz → vpn < 2 ^ 26 → ¬ Valid (entry m.mem new vpn))
    (hfail : uvmcopy m old new sz = .ok (false, m')) : Restored new m m' := by
  obtain ⟨hspace, hapart⟩ := hnew.space
  rw [← held_empty m.mem new] at haway
  rw [← Set.Ico_self 0] at hspace hapart haway
  obtain ⟨added, map, hchange, hfades⟩ := uvmcopyLoop_restores (v := 0) hspace hapart hold haway
    (fun vpn _ hhi hvpn => hvacant vpn (by rw [pages]; rw [pgSize] at hhi; omega) hvpn) hfail
  rw [Set.Ico_self] at hchange
  rw [clearMap_zero] at hfades
  exact hchange.restored hfades

end Uvmcopy

section Kvmcopy

variable {old new : ℕ} {m : Machine}

/-- The tables that the pages from `v` on need run out of free pages, at a page up to
which the source is mapped. -/
def Short (m : Machine) (old new v n : ℕ) : Prop :=
  ∃ w, v ≤ w ∧ w < v + n ∧ (∀ u, v ≤ u → u ≤ w → Valid (entry m.mem old u)) ∧
    m.free.length < (missing m.mem new (Finset.Ico v (w + 1))).card

/-- The loop of `kvmcopy` rolls back exactly when the tables run out, and then from
address 0 on. -/
theorem kvmcopyLoop_outcome {n v : ℕ} (hnew : Ready m new) (hold : Table m.mem old)
    (haway : Away (tables m.mem old) (tables m.mem new) m) (hend : v + n ≤ 2 ^ 26)
    (hvacant : ∀ vpn, v ≤ vpn → vpn < v + n → ¬ Valid (entry m.mem new vpn)) :
    (Short m old new v n ∧ ∃ w m₁ added, v ≤ w ∧ w < v + n ∧
      kvmcopyLoop old new n (4096 * v) m
        = (uvmunmap m₁ new 0 w false).map (fun m' => (false, m')) ∧
      Edit new added (mirrorMap (entry m.mem old) (entry m.mem new) v (w - v)) m m₁) ∨
    (¬ Short m old new v n ∧ ∀ m', kvmcopyLoop old new n (4096 * v) m ≠ .ok (false, m')) := by
  induction n generalizing v m with
  | zero =>
      refine Or.inr ⟨?_, ?_⟩
      · rintro ⟨w, hlo, hhi, -⟩
        omega
      · intro m' heq
        cases heq
  | succ n ih =>
      have hv : v < 2 ^ 26 := by omega
      by_cases hvalid : Valid (entry m.mem old v)
      · rcases kvmcopyLoop_turn hnew hold hv hvalid (hvacant v le_rfl (by omega)) with
          ⟨m₁, hstep, hedit⟩ | ⟨m₁, added, hstep, hedit, hcard⟩
        · obtain ⟨haway₁, hframe⟩ := hedit.moves.away haway
          rw [← tables_frame hframe] at haway₁
          have hsource := entry_frame hframe
          have hvacant₁ : ∀ vpn, v + 1 ≤ vpn → vpn < v + 1 + n →
              ¬ Valid (entry m₁.mem new vpn) := by
            intro vpn hlo hhi
            rw [hedit.entry_eq vpn (by omega), Function.update_of_ne (by omega)]
            exact hvacant vpn (by omega) (by omega)
          -- The page just mirrored has paid for its own tables.
          have hcount := hedit.count
          have hsplit : ∀ w, v ≤ w →
              Finset.Ico v (w + 1) = {v} ∪ Finset.Ico (v + 1) (w + 1) := by
            intro w hw
            ext u
            simp only [Finset.mem_union, Finset.mem_singleton, Finset.mem_Ico]
            omega
          have hshort : Short m₁ old new (v + 1) n ↔ Short m old new v (n + 1) := by
            constructor
            · rintro ⟨w, hlo, hhi, hmapped, hcard⟩
              refine ⟨w, by omega, by omega, ?_, ?_⟩
              · intro u hu huw
                by_cases heq : u = v
                · rw [heq]
                  exact hvalid
                · rw [← hsource]
                  exact hmapped u (by omega) huw
              · obtain ⟨-, hsum⟩ := hedit.toAdds.missing_card (Finset.Ico (v + 1) (w + 1))
                rw [hsplit w (by omega), hsum]
                omega
            · rintro ⟨w, hlo, hhi, hmapped, hcard⟩
              obtain ⟨-, hsum⟩ := hedit.toAdds.missing_card (Finset.Ico (v + 1) (w + 1))
              rw [hsplit w hlo, hsum] at hcard
              have hne : w ≠ v := by
                rintro rfl
                have hnone : missing m₁.mem new (Finset.Ico (w + 1) (w + 1)) = ∅ := by
                  simp [missing]
                rw [hnone, Finset.card_empty] at hcard
                omega
              refine ⟨w, by omega, by omega, ?_, by omega⟩
              intro u hu huw
              rw [hsource]
              exact hmapped u (by omega) huw
          rw [hstep, ← hshort]
          rcases ih (hedit.ready hnew) (hold.frame hframe) haway₁
            (show v + 1 + n ≤ 2 ^ 26 by omega) hvacant₁ with
            ⟨hruns, w, m₂, added, hlo, hhi, hloop, hedit'⟩ | ⟨henough, hloop⟩
          · refine Or.inl ⟨hruns, w, m₂, _, by omega, by omega, hloop,
              (hedit.trans hedit').congr ?_⟩
            intro vpn hvpn
            rw [show w - v = w - (v + 1) + 1 by omega, ← mirrorMap_succ]
            simp only [mirrorMap, hsource, hedit.entry_eq vpn hvpn]
          · exact Or.inr ⟨henough, hloop⟩
        · refine Or.inl ⟨⟨v, le_rfl, by omega, ?_, ?_⟩, v, m₁, added, le_rfl, by omega, hstep n, ?_⟩
          · intro u hu huv
            rw [show u = v by omega]
            exact hvalid
          · rw [Nat.Ico_succ_singleton]
            exact hcard
          · rw [Nat.sub_self, mirrorMap_zero]
            exact hedit
      · refine Or.inr ⟨?_, ?_⟩
        · rintro ⟨w, hlo, -, hmapped, -⟩
          exact hvalid (hmapped v le_rfl hlo)
        · intro m' heq
          obtain ⟨e, herror⟩ := (copyLoops_stuck (fun h => hvalid h.2) new n).2
          rw [herror] at heq
          cases heq

/-- `uvmunmap` returns only when every page was mapped. -/
theorem valid_of_uvmunmapLoop {n lo : ℕ} {m' : Machine} (h : Ready m new)
    (hend : lo + n ≤ 2 ^ 26) (hok : uvmunmapLoop new false n (4096 * lo) m = .ok m') :
    ∀ vpn, lo ≤ vpn → vpn < lo + n → Valid (entry m.mem new vpn) := by
  induction n generalizing lo m with
  | zero =>
      intro vpn hlo hhi
      omega
  | succ n ih =>
      have hlo : lo < 2 ^ 26 := by omega
      by_cases hvalid : Valid (entry m.mem new lo)
      · obtain ⟨table, hnode, hturn⟩ := uvmunmapLoop_turn hlo hvalid (h.table.flags_ne hvalid)
        have hedit := Edit.store h hlo hnode 0 fun hzero => absurd hzero not_valid_zero
        rw [hturn] at hok
        intro vpn hle hhi
        by_cases heq : vpn = lo
        · rw [heq]
          exact hvalid
        · have hrest := ih (hedit.ready h) (show lo + 1 + n ≤ 2 ^ 26 by omega) hok vpn (by omega)
            (by omega)
          rwa [hedit.entry_eq vpn (by omega), Function.update_of_ne heq] at hrest
      · exfalso
        have hfind := find_eq m new hlo (show 0 < 4096 by decide)
        rw [Nat.add_zero] at hfind
        rw [uvmunmapLoop, hfind] at hok
        cases hnode : node next m.mem new (pathOf lo) with
        | none =>
            rw [hnode] at hok
            cases hok
        | some table =>
            rw [entry_of_node hnode] at hvalid
            simp only [hnode, Option.map_some, ok_bind, hvalid, not_false_eq_true, if_true] at hok
            cases hok

/-- The virtual page that `kvmcopy` starts at. -/
def firstPage (st : ℕ) : ℕ := pgRoundUp st / 4096

theorem pgRoundUp_firstPage (st : ℕ) : pgRoundUp st = 4096 * firstPage st := by
  rw [firstPage, pgRoundUp, pgSize]
  omega

/-- When `kvmcopy` restores the table: its arguments are refused at once; or it starts
at address 0; or there are pages enough for the tables it needs; or a page below the
start is not mapped, and the roll-back ends in a panic. -/
def Harmless (L : Layout) (m : Machine) (old new st sz : ℕ) : Prop :=
  L.plic * pgSize < sz ∨ pgRoundUp st = 0 ∨
    ¬ Short m old new (firstPage st) (pages sz - firstPage st) ∨
    ∃ vpn, vpn < firstPage st ∧ ¬ Valid (entry m.mem new vpn)

theorem Edit.restored {added : Finset (List (Fin 512))} {map : ℕ → Word} {m' : Machine}
    (h : Edit new added map m m') (hfades : Fades (entry m.mem new) map) : Restored new m m' := by
  refine ⟨Fades.mappings_eq ?_, h.moves⟩
  intro vpn hvpn
  rw [h.entry_eq vpn hvpn]
  exact hfades vpn hvpn

theorem kvmcopy_eq_loop (L : Layout) {st sz : ℕ} (hplic : ¬ L.plic * pgSize < sz) :
    kvmcopy L m old new st sz
      = kvmcopyLoop old new (pages sz - firstPage st) (4096 * firstPage st) m := by
  rw [kvmcopy, if_neg hplic, pgRoundUp_firstPage, Nat.mul_comm, npages_eq]

/-- The roll-back of `kvmcopy` at page `w`, when everything below the start `v` is
mapped. -/
theorem kvmcopy_rollback {v w : ℕ} {m₁ : Machine} {added : Finset (List (Fin 512))}
    (hready : Ready m new) (hvw : v ≤ w) (hw : w < 2 ^ 26)
    (hbelow : ∀ vpn, vpn < v → Valid (entry m.mem new vpn))
    (hedit : Edit new added (mirrorMap (entry m.mem old) (entry m.mem new) v (w - v)) m m₁) :
    ∃ m', uvmunmap m₁ new 0 w false = .ok m' ∧
      Edit new added (clearMap (entry m.mem new) 0 w) m m' := by
  have hvalid : ∀ vpn, 0 ≤ vpn → vpn < 0 + w → Valid (entry m₁.mem new vpn) := by
    intro vpn _ hvpn
    rw [hedit.entry_eq vpn (by omega), mirrorMap]
    by_cases hin : v ≤ vpn
    · rw [if_pos (by omega)]
      exact valid_entry _ _
    · rw [if_neg (by omega)]
      exact hbelow vpn (by omega)
  obtain ⟨m', hunmap, -, hedit'⟩ := uvmunmap_keep (show 0 = 0 * 4096 by rfl)
    (hedit.ready hready) (show 0 + w ≤ 2 ^ 26 by omega) hvalid
  have hboth := hedit.trans hedit'
  rw [Finset.union_empty] at hboth
  refine ⟨m', hunmap, hboth.congr ?_⟩
  intro vpn hvpn
  rw [clearMap, clearMap]
  by_cases hin : vpn < w
  · rw [if_pos (by omega), if_pos (by omega)]
  · rw [if_neg (by omega), if_neg (by omega), hedit.entry_eq vpn hvpn, mirrorMap,
      if_neg (by omega)]

theorem kvmcopy_restores_iff (L : Layout) {st sz : ℕ} (hnew : Ready m new)
    (hold : Table m.mem old) (haway : Away (tables m.mem old) (tables m.mem new) m)
    (hvacant : ∀ vpn, firstPage st ≤ vpn → vpn < pages sz → vpn < 2 ^ 26 →
      ¬ Valid (entry m.mem new vpn)) :
    (∀ m', kvmcopy L m old new st sz = .ok (false, m') → Restored new m m') ↔
      Harmless L m old new st sz := by
  by_cases hplic : L.plic * pgSize < sz
  · refine iff_of_true ?_ (Or.inl hplic)
    intro m' heq
    rw [kvmcopy, if_pos hplic] at heq
    cases heq
    exact ⟨rfl, Moves.refl hnew.toApart⟩
  rw [kvmcopy_eq_loop L hplic]
  have hlast : pages sz < 2 ^ 26 := by
    have hle := L.plic_le
    have h₂ := L.uart0_lt
    have h₃ := L.virtio0_lt
    have h₄ := L.kernbase_le
    rw [pgSize] at hplic
    rw [pages]
    omega
  have hpages : ∀ vpn, vpn < firstPage st + (pages sz - firstPage st) →
      firstPage st ≤ vpn → vpn < pages sz := fun vpn hhi hlo => by omega
  by_cases hempty : pages sz ≤ firstPage st
  · have hnone : pages sz - firstPage st = 0 := by omega
    refine iff_of_true ?_ (Or.inr (Or.inr (Or.inl ?_)))
    · intro m' heq
      rw [hnone] at heq
      cases heq
    · rintro ⟨w, hlo, hhi, -⟩
      omega
  rcases kvmcopyLoop_outcome hnew hold haway
    (show firstPage st + (pages sz - firstPage st) ≤ 2 ^ 26 by omega)
    (fun vpn hlo hhi => hvacant vpn hlo (hpages vpn hhi hlo) (by omega)) with
    ⟨hshort, w, m₁, added, hlo, hhi, hloop, hedit⟩ | ⟨henough, hloop⟩
  · rw [hloop]
    by_cases hbelow : ∀ vpn, vpn < firstPage st → Valid (entry m.mem new vpn)
    · obtain ⟨m', hunmap, hedit'⟩ := kvmcopy_rollback hnew hlo (by omega) hbelow hedit
      rw [hunmap]
      constructor
      · -- Page 0 was mapped, and is not any more.
        intro hall
        refine Or.inr (Or.inl ?_)
        by_contra hst
        have hpos : 0 < firstPage st := by
          rw [pgRoundUp_firstPage] at hst
          omega
        have hmapped : (0, entry m.mem new 0) ∈ mappings m.mem new :=
          ⟨show 0 < 2 ^ 26 by decide, rfl, hbelow 0 hpos⟩
        rw [← (hall m' rfl).same] at hmapped
        obtain ⟨-, hsame, hvalid⟩ := hmapped
        rw [hedit'.entry_eq 0 (by decide), clearMap, if_pos (by omega)] at hsame
        rw [← hsame] at hvalid
        exact not_valid_zero hvalid
      · rintro (hfalse | hst | henough | ⟨vpn, hvpn, hnot⟩) m'' heq
        · exact absurd hfalse hplic
        · cases heq
          apply hedit'.restored
          intro vpn hvpn
          rw [pgRoundUp_firstPage] at hst
          rw [clearMap]
          by_cases hin : vpn < w
          · rw [if_pos (by omega)]
            exact Or.inr ⟨hvacant vpn (by omega) (by omega) hvpn, rfl⟩
          · rw [if_neg (by omega)]
            exact Or.inl rfl
        · exact absurd hshort henough
        · exact absurd (hbelow vpn hvpn) hnot
    · push Not at hbelow
      obtain ⟨vpn, hvpn, hnot⟩ := hbelow
      refine iff_of_true ?_ (Or.inr (Or.inr (Or.inr ⟨vpn, hvpn, hnot⟩)))
      intro m' heq
      exfalso
      cases hunmap : uvmunmap m₁ new 0 w false with
      | error e =>
          rw [hunmap] at heq
          cases heq
      | ok m₂ =>
          rw [uvmunmap, if_neg (by decide)] at hunmap
          have hvalid := valid_of_uvmunmapLoop (hedit.ready hnew)
            (show 0 + w ≤ 2 ^ 26 by omega) hunmap vpn (Nat.zero_le vpn) (by omega)
          rw [hedit.entry_eq vpn (by omega), mirrorMap, if_neg (by omega)] at hvalid
          exact hnot hvalid
  · exact iff_of_true (fun m' heq => absurd heq (hloop m')) (Or.inr (Or.inr (Or.inl henough)))

end Kvmcopy

/-- The calls that undo partial work. -/
inductive Copying
  | uvmalloc (pagetable oldsz newsz : ℕ)
  | uvmcopy (old new sz : ℕ)
  | kvmcopy (old new st sz : ℕ)

namespace Copying

variable (L : Layout) (m : Machine)

/-- The tables are well-formed and apart, and the range to be filled is empty. -/
def Admitted : Copying → Prop
  | uvmalloc pagetable _ _ => Ready m pagetable
  | uvmcopy old new sz => Ready m new ∧ Table m.mem old ∧
      Away (tables m.mem old) (tables m.mem new) m ∧
      ∀ vpn, vpn < pages sz → vpn < 2 ^ 26 → ¬ Valid (entry m.mem new vpn)
  | kvmcopy old new st sz => Ready m new ∧ Table m.mem old ∧
      Away (tables m.mem old) (tables m.mem new) m ∧
      ∀ vpn, firstPage st ≤ vpn → vpn < pages sz → vpn < 2 ^ 26 → ¬ Valid (entry m.mem new vpn)

/-- A call that fails restores the table it was to fill. -/
def Restores : Copying → Prop
  | uvmalloc pagetable oldsz newsz => ∀ m', Vm.uvmalloc m pagetable oldsz newsz = .ok (0, m') →
      Restored pagetable m m'
  | uvmcopy old new sz => ∀ m', Vm.uvmcopy m old new sz = .ok (false, m') → Restored new m m'
  | kvmcopy old new st sz => ∀ m', Vm.kvmcopy L m old new st sz = .ok (false, m') →
      Restored new m m'

/-- Only `kvmcopy` can do harm. -/
def Safe : Copying → Prop
  | uvmalloc _ _ _ => True
  | uvmcopy _ _ _ => True
  | kvmcopy old new st sz => Harmless L m old new st sz

/-- A failed call restores the table, unless it is a `kvmcopy` that has started above
address 0. -/
theorem restores_iff_safe {call : Copying} (h : call.Admitted m) :
    call.Restores L m ↔ call.Safe L m := by
  cases call with
  | uvmalloc pagetable oldsz newsz =>
      exact iff_of_true (fun _ hfail => uvmalloc_restores h hfail) trivial
  | uvmcopy old new sz =>
      obtain ⟨hnew, hold, haway, hvacant⟩ := h
      exact iff_of_true (fun _ hfail => uvmcopy_restores hnew hold haway hvacant hfail) trivial
  | kvmcopy old new st sz =>
      obtain ⟨hnew, hold, haway, hvacant⟩ := h
      exact kvmcopy_restores_iff L hnew hold haway hvacant

end Copying

section Chain

variable {mem : ℕ → Page} {root mid last : ℕ} {i j : Fin 512}

/-- A table with one page on each level. -/
structure Chain (mem : ℕ → Page) (root mid last : ℕ) (i j : Fin 512) : Prop where
  upper : ∀ k, mem root k = if k = i then pa2pte mid ||| pteV else 0
  lower : ∀ k, mem mid k = if k = j then pa2pte last ||| pteV else 0
  leaf : ∀ k, Valid (mem last k) → Leaf (mem last k)
  distinct : root ≠ mid ∧ root ≠ last ∧ mid ≠ last
  low : i.val < 256
  bound : root < 2 ^ 52 ∧ mid < 2 ^ 52 ∧ last < 2 ^ 52

theorem Chain.node_eq (h : Chain mem root mid last i j) {path : List (Fin 512)}
    (hlength : path.length ≤ 2) : node next mem root path =
      if path = [] then some root else if path = [i] then some mid
      else if path = [i, j] then some last else none := by
  have hroot : ∀ k, next (mem root k) = if k = i then some mid else none := by
    intro k
    rw [h.upper]
    split
    · exact next_table h.bound.2.1
    · exact next_zero
  have hmid : ∀ k, next (mem mid k) = if k = j then some last else none := by
    intro k
    rw [h.lower]
    split
    · exact next_table h.bound.2.2
    · exact next_zero
  match path, hlength with
  | [], _ => rfl
  | [k], _ =>
      rw [node, hroot]
      by_cases hk : k = i <;> simp [hk, node]
  | [k, l], _ =>
      rw [node, hroot]
      by_cases hk : k = i
      · rw [if_pos hk, Option.bind_some, node, hmid]
        by_cases hl : l = j <;> simp [hk, hl, node]
      · simp [hk]

theorem Chain.table (h : Chain mem root mid last i j) : Table mem root := by
  obtain ⟨hne, hne', hne''⟩ := h.distinct
  refine ⟨?_, ?_, ?_, ?_, h.bound.1⟩
  · intro path path' page hlength hlength' hpath hpath'
    rw [h.node_eq hlength] at hpath
    rw [h.node_eq hlength'] at hpath'
    split_ifs at hpath hpath' <;> simp_all
  · intro path page k hlength hpath
    rw [h.node_eq (by omega)] at hpath
    split_ifs at hpath with hnil hone htwo
    · cases hpath
      rw [h.upper]
      split
      · exact fun _ => not_leaf_table h.bound.2.1
      · exact fun hzero => absurd hzero not_valid_zero
    · cases hpath
      rw [h.lower]
      split
      · exact fun _ => not_leaf_table h.bound.2.2
      · exact fun hzero => absurd hzero not_valid_zero
    · rw [htwo] at hlength
      simp at hlength
  · intro path page k hlength hpath
    rw [h.node_eq (by omega)] at hpath
    split_ifs at hpath with hnil hone htwo
    · simp [hnil] at hlength
    · simp [hone] at hlength
    · cases hpath
      exact h.leaf k
  · intro k hvalid
    rw [h.upper] at hvalid
    split at hvalid
    · rename_i hk
      rw [hk]
      exact h.low
    · exact absurd hvalid not_valid_zero

theorem Chain.tables_eq (h : Chain mem root mid last i j) :
    tables mem root = {root, mid, last} := by
  ext page
  simp only [Set.mem_insert_iff, Set.mem_singleton_iff]
  constructor
  · rintro ⟨path, hlength, hpath⟩
    rw [h.node_eq hlength] at hpath
    split_ifs at hpath <;> simp_all
  · rintro (rfl | rfl | rfl)
    · exact root_mem_nodes 2
    · exact ⟨[i], by simp, by rw [h.node_eq (by simp)]; simp⟩
    · exact ⟨[i, j], by simp, by rw [h.node_eq (by simp)]; simp⟩

theorem Chain.entry_eq (h : Chain mem root mid last i j) (vpn : ℕ) : entry mem root vpn
    = if pathOf vpn = [i, j] then mem last (idx 0 vpn) else 0 := by
  have hnode := h.node_eq (show (pathOf vpn).length ≤ 2 by simp [pathOf])
  rw [if_neg (by simp [pathOf]), if_neg (by simp [pathOf])] at hnode
  split
  · rename_i hpath
    rw [if_pos hpath] at hnode
    exact entry_of_node hnode
  · rename_i hpath
    rw [if_neg hpath] at hnode
    exact entry_of_none hnode

end Chain

/-- A kernel page table on pages 1 to 3 that mirrors the first 512 pages of a process,
and a user page table on pages 4 to 6 that maps the page after them; no page is free. -/
def fullMirror : Machine where
  mem := fun page k =>
    if page = 1 then (if k.val = 0 then pa2pte 2 ||| pteV else 0)
    else if page = 2 then (if k.val = 0 then pa2pte 3 ||| pteV else 0)
    else if page = 3 then pa2pte (100 + k.val) ||| pteR ||| pteV
    else if page = 4 then (if k.val = 0 then pa2pte 5 ||| pteV else 0)
    else if page = 5 then (if k.val = 1 then pa2pte 6 ||| pteV else 0)
    else if page = 6 then pa2pte (612 + k.val) ||| (pteR ||| pteU) ||| pteV
    else 0
  free := []

theorem fullMirror_new : Chain fullMirror.mem 1 2 3 0 0 where
  upper := by
    intro k
    simp only [fullMirror, Fin.ext_iff]
    rfl
  lower := by
    intro k
    simp only [fullMirror, Fin.ext_iff]
    rfl
  leaf := fun k _ => leaf_entry (show 100 + k.val < 2 ^ 52 by omega) (by decide)
  distinct := by decide
  low := by decide
  bound := by decide

theorem fullMirror_old : Chain fullMirror.mem 4 5 6 0 1 where
  upper := by
    intro k
    simp only [fullMirror, Fin.ext_iff]
    rfl
  lower := by
    intro k
    simp only [fullMirror, Fin.ext_iff]
    rfl
  leaf := fun k _ => leaf_entry (show 612 + k.val < 2 ^ 52 by omega) (by decide)
  distinct := by decide
  low := by decide
  bound := by decide

/-- Growing by one page at two megabytes needs a table that is not to be had. -/
theorem fullMirror_admitted :
    (Copying.kvmcopy 4 1 (512 * 4096) (513 * 4096)).Admitted fullMirror ∧
      ¬ Harmless virt fullMirror 4 1 (512 * 4096) (513 * 4096) := by
  have hfirst : firstPage (512 * 4096) = 512 := by decide
  have hpages : pages (513 * 4096) = 513 := by decide
  have hready : Ready fullMirror 1 :=
    ⟨⟨List.nodup_nil, by simp [fullMirror], by simp [fullMirror]⟩, fullMirror_new.table⟩
  have habove : pathOf 512 ≠ [0, 0] := by decide
  refine ⟨⟨hready, fullMirror_old.table, ?_, ?_⟩, ?_⟩
  · intro page hpage
    rw [fullMirror_old.tables_eq] at hpage
    rw [fullMirror_new.tables_eq]
    simp only [Set.mem_insert_iff, Set.mem_singleton_iff] at hpage ⊢
    refine ⟨by omega, by simp [fullMirror]⟩
  · intro vpn hlo hhi _
    rw [hfirst] at hlo
    rw [hpages] at hhi
    obtain rfl : vpn = 512 := by omega
    rw [fullMirror_new.entry_eq, if_neg habove]
    exact not_valid_zero
  · rw [Harmless, hfirst, hpages]
    rintro (hplic | hst | henough | ⟨vpn, hvpn, hnot⟩)
    · revert hplic
      decide
    · revert hst
      decide
    · apply henough
      refine ⟨512, le_rfl, by decide, ?_, ?_⟩
      · intro u hlo hhi
        obtain rfl : u = 512 := by omega
        rw [fullMirror_old.entry_eq, if_pos (by decide)]
        exact valid_entry _ _
      · have hnext : next (fullMirror.mem 1 (idx 2 512)) = some 2 := next_table (by decide)
        have hnone : next (fullMirror.mem 2 (idx 1 512)) = none := next_zero
        rw [Nat.Ico_succ_singleton, missing_eq_last hnext hnone]
        decide
    · apply hnot
      have hpath : pathOf vpn = [0, 0] := by
        simp only [pathOf, idx, List.cons.injEq, Fin.ext_iff, and_true]
        omega
      rw [fullMirror_new.entry_eq, if_pos hpath]
      exact valid_entry _ _

/-- A mirror in the blank table on page 7, which starts at address 0, ends with its first
table. -/
theorem fullMirror_blank : (Copying.kvmcopy 1 7 0 4096).Admitted fullMirror ∧
    ∃ m', kvmcopy virt fullMirror 1 7 0 4096 = .ok (false, m') := by
  have hblank : fullMirror.mem 7 = fun _ => 0 := by
    funext k
    simp [fullMirror]
  have hentry := entry_of_blank hblank
  have hone : pages 4096 = 1 := by decide
  have hready : Ready fullMirror 7 :=
    ⟨⟨List.nodup_nil, by simp [fullMirror], by simp [fullMirror]⟩,
      table_of_blank hblank (by decide)⟩
  have haway : Away (tables fullMirror.mem 1) (tables fullMirror.mem 7) fullMirror := by
    intro page hpage
    rw [fullMirror_new.tables_eq] at hpage
    rw [tables_of_blank hblank]
    simp only [Set.mem_insert_iff, Set.mem_singleton_iff] at hpage ⊢
    exact ⟨by omega, by simp [fullMirror]⟩
  refine ⟨⟨hready, fullMirror_new.table, haway, ?_⟩, ?_⟩
  · intro vpn _ _ _
    rw [hentry]
    exact not_valid_zero
  · rcases kvmcopy_spec virt hready fullMirror_new.table haway (Nat.zero_le 4096) (by decide)
      (by decide) (by
        intro vpn _ hvpn
        obtain rfl : vpn = 0 := by omega
        rw [fullMirror_new.entry_eq, if_pos (by decide)]
        exact valid_entry _ _)
      (fun vpn _ _ => hentry vpn) (fun vpn hvpn => absurd hvpn (Nat.not_lt_zero vpn)) with
      ⟨m', -, hedit⟩ | ⟨m', added, hfail, -⟩
    · have hcount := hedit.count
      rw [missing_of_blank hblank] at hcount
      have htables : (tablesFor (Finset.Ico (pages 0) (pages 4096))).card = 2 := by decide
      change 0 = _ at hcount
      omega
    · exact ⟨m', hfail⟩

theorem rollback_restores_iff_fullMirror :
    ¬ (Copying.kvmcopy 4 1 (512 * 4096) (513 * 4096)).Restores virt fullMirror ∧
    (Copying.kvmcopy 1 7 0 4096).Restores virt fullMirror ∧
      ∃ m', kvmcopy virt fullMirror 1 7 0 4096 = .ok (false, m') := by
  obtain ⟨hadmitted, hharm⟩ := fullMirror_admitted
  obtain ⟨hblank, hfail⟩ := fullMirror_blank
  refine ⟨fun hall => ?_, ?_, hfail⟩
  · exact hharm ((Copying.restores_iff_safe virt fullMirror hadmitted).mp hall)
  · exact (Copying.restores_iff_safe virt fullMirror hblank).mpr (Or.inr (Or.inl rfl))

theorem rollback_not_restores : ¬ ∀ (L : Layout) (m : Machine) (call : Copying),
    call.Admitted m → call.Restores L m := by
  intro hall
  obtain ⟨hadmitted, hharm⟩ := fullMirror_admitted
  obtain ⟨hnew, hold, haway, hvacant⟩ := id hadmitted
  exact hharm ((kvmcopy_restores_iff virt hnew hold haway hvacant).mp
    (hall virt fullMirror _ hadmitted))

end OperateSystem.Vm
