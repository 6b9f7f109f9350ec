/-
  `exec` builds a new image from the free list: either a page table with the address-space
  invariant of `Xv6.Vm.Image`, or nothing, with every page given back (`wp_execImage`).

  While segments are loaded the new image has no gaps: all pages below its size are mapped and
  open to the user.  So a segment that is too large makes `uvmalloc` run out of memory before it
  runs out of addresses, `loadseg` finds every page it needs, and the copies to the new stack
  never fault.
-/
import Xv6.Vm.Image

namespace Xv6

open Function
open Lib.Prog hiding update

section exec

variable {r sz a tramp tf : Nat} {s : Mach} {T : Tree} {H : Multiset Nat} {guard : Option Nat}

/-! ## Segments -/

/-- A mapped user page below `UPAGES` that the user can access. -/
def UserPage (leaf : Nat → Nat) (v : Nat) : Prop :=
  v < UPAGES ∧ (leaf v).testBit 0 ∧ (leaf v).testBit 4

variable {v : Nat} {data : Nat → (Nat → Nat) → Nat → Nat}

/-- `walkaddr` of a page that is there. -/
theorem wp_walkaddr_user {Q : Option Nat → Mach → Prop} (h : Rep s.mem r T) (hv : UserPage T.leaf v)
    (hQ : Q (some (PTE2PA (T.leaf v))) s) : wp Crit.total Q (walkaddr r (v * PGSIZE)) s := by
  obtain ⟨hlt, hV, hU⟩ := hv
  refine wp_walkaddr h ?_ fun _ _ _ => hQ
  intro hno
  exact absurd ⟨user_lt_MAXVA hlt, hV, hU⟩ hno

theorem wp_loadsegLoop {ph : Phdr} {v : Nat} :
    ∀ (n : Nat) {s : Mach} {i : Nat} {Q : Bool → Mach → Prop}, Holds s r T H →
      (∀ w, v + i ≤ w → w < v + i + n → UserPage T.leaf w) →
      (∀ b t, Goes r s T H t T H → Q b t) →
      wp Crit.total Q (loadsegLoop r (v * PGSIZE) ph n i) s
  | 0, s, i, Q, h, _, hQ => hQ true s (Goes.refl h)
  | n + 1, s, i, Q, h, hpages, hQ => by
    have hpage := hpages (v + i) (le_refl _) (by omega)
    unfold loadsegLoop
    rw [wp_bind, ← Nat.add_mul]
    refine wp_walkaddr_user h.rep hpage ?_
    refine ⟨trivial, ?_⟩
    have g := Goes.writePage h (mem_pages hpage.1 hpage.2.1)
      (ph.page i (s.mem (PTE2PA (T.leaf (v + i)))))
    split
    · refine wp_loadsegLoop n (h.goes g) ?_ ?_
      · intro w h1 h2
        exact hpages w (by omega) (by omega)
      · intro b t g'
        exact hQ b t (g.trans g')
    · exact hQ false _ g

/-- An image without gaps: all pages below its size are mapped. -/
structure Solid (leaf : Nat → Nat) (sz tramp tf : Nat) : Prop where
  space : Space leaf sz none tramp tf
  dense : Dense leaf (npages sz)

theorem Solid.userPage (h : Solid T.leaf sz tramp tf) (hv : v < npages sz) : UserPage T.leaf v := by
  have hnp := h.space.npages_le
  have hV := h.dense v hv
  refine ⟨by omega, hV, ?_⟩
  rcases h.space.user v (by omega) hV with hU | hc
  · exact hU
  · cases hc

/-- `uvmalloc` on an image without gaps, for any size. -/
theorem wp_uvmalloc_solid {Q : Nat → Mach → Prop} {newsz xperm : Nat} (h : Holds s r T H)
    (hsol : Solid T.leaf sz tramp tf) (hx : xperm < 1024) (hlt : newsz < sz → Q sz s)
    (hn : ∀ t T', Goes r s T H t T' H → T'.leaf = T.leaf → Q 0 t)
    (hs : ∀ t T', sz ≤ newsz → Goes r s T H t T' H → Solid T'.leaf newsz tramp tf →
      Q newsz t) :
    wp Crit.total Q (uvmalloc r sz newsz xperm) s := by
  refine wp_uvmalloc h (Nat.or_lt_two_pow (n := 10) (by decide) hx) (Or.inr hsol.dense) ?_ hlt ?_ ?_
  · intro v hv _ hU
    exact hsol.space.zero h.rep hU hv
  · intro t T' _ g hleaf _
    exact hn t T' g hleaf
  · rintro t T' hle ⟨g, hgrown, _, _⟩
    have hdense : Dense T'.leaf (npages newsz) := by
      intro v hv
      rcases Nat.lt_or_ge v (npages sz) with hv' | hv'
      · rw [hgrown.old v (by omega)]
        exact hsol.dense v hv'
      · exact hgrown.valid hv' (by omega)
    -- that many pages were mapped, so the new size is within bounds
    have hsz : newsz ≤ TRAPFRAME := by
      have hU := (h.goes g).dense_lt hdense
      have hle' := le_npages_mul newsz
      exact Nat.le_trans hle' (Nat.mul_le_mul_right _ (le_of_lt hU))
    exact hs t T' hle g ⟨hsol.space.grown hle hsz hx hgrown, hdense⟩

/-- The pages of a segment's file part are below the size the segment asks for. -/
theorem segment_pages {ph : Phdr} {i : Nat} (hv : ph.vaddr.toNat = v * PGSIZE)
    (hmem : ¬ ph.memsz < ph.filesz) (hov : ¬ ph.vaddr + ph.memsz < ph.vaddr)
    (hi : i < v + (ph.filesz.toNat % 2 ^ 32 + PGSIZE - 1) / PGSIZE) :
    i < npages (ph.vaddr + ph.memsz).toNat := by
  rw [BitVec.lt_def] at hmem hov
  have hadd : (ph.vaddr + ph.memsz).toNat = ph.vaddr.toNat + ph.memsz.toNat := by
    rw [BitVec.toNat_add] at hov ⊢
    omega
  rw [hadd, hv]
  unfold npages
  simp only [PGSIZE] at hi ⊢
  omega

/-- A segment that has been allocated is far below 4 GiB, so `loadseg` ends. -/
theorem segment_small {ph : Phdr} (h : Holds s r T H) (hsol : Solid T.leaf sz tramp tf)
    (hmem : ¬ ph.memsz < ph.filesz) (hov : ¬ ph.vaddr + ph.memsz < ph.vaddr)
    (hle : (ph.vaddr + ph.memsz).toNat ≤ sz) :
    ph.filesz.toNat % 2 ^ 32 ≤ 2 ^ 32 - PGSIZE := by
  have hpages := h.dense_le hsol.dense hsol.space.npages_le
  have hsz := le_npages_mul sz
  rw [BitVec.lt_def] at hmem hov
  have hadd : ph.memsz.toNat ≤ (ph.vaddr + ph.memsz).toNat := by
    rw [BitVec.toNat_add] at hov ⊢
    omega
  simp only [NFRAMES, PHYSTOP, KERNBASE, PGSIZE] at hpages hsz ⊢
  omega

theorem wp_loadSegments : ∀ (phs : List Phdr) {s : Mach} {T : Tree} {sz : Nat}
    {Q : Bool × Nat → Mach → Prop}, Holds s r T H → Solid T.leaf sz tramp tf →
    (∀ ok sz' t T', Goes r s T H t T' H → Solid T'.leaf sz' tramp tf → Q (ok, sz') t) →
    wp Crit.total Q (loadSegments r phs sz) s
  | [], s, T, sz, Q, h, hsol, hQ => hQ true sz s T (Goes.refl h) hsol
  | ph :: rest, s, T, sz, Q, h, hsol, hQ => by
    have hbad : Q (false, sz) s := hQ false sz s T (Goes.refl h) hsol
    unfold loadSegments
    split
    · exact hbad
    split
    · exact wp_loadSegments rest h hsol hQ
    split
    · exact hbad
    rename_i hmem
    split
    · exact hbad
    rename_i hov
    split
    · exact hbad
    rename_i hal
    obtain ⟨v, hv⟩ : ∃ v, ph.vaddr.toNat = v * PGSIZE := by
      refine ⟨ph.vaddr.toNat / PGSIZE, ?_⟩
      exact (Nat.div_mul_cancel (Nat.dvd_of_mod_eq_zero (not_not.mp hal))).symm
    have hperm : flags2perm ph.flags < 1024 := by
      unfold flags2perm
      split <;> split <;> decide
    -- what is left once the pages are there
    have hload : ∀ t T' sz1, Goes r s T H t T' H → Solid T'.leaf sz1 tramp tf →
        (ph.vaddr + ph.memsz).toNat ≤ sz1 → wp Crit.total Q (do
          if ← loadseg r ph.vaddr.toNat ph ph.filesz.toNat then loadSegments r rest sz1
          else pure (false, sz1)) t := by
      intro t T' sz1 g hsol' hle
      rw [wp_bind]
      unfold loadseg
      rw [hv, wp_bind]
      refine wp_loadsegLoop _ (h.goes g) ?_ ?_
      · intro w h1 h2
        refine hsol'.userPage (Nat.lt_of_lt_of_le ?_ (npages_mono hle))
        exact segment_pages hv hmem hov (by omega)
      · intro b u g'
        have hu := (h.goes g).goes g'
        have hsmall := segment_small (h.goes g) hsol' hmem hov hle
        rw [if_neg fun hc => absurd hc.2 (by omega)]
        cases b with
        | true =>
          refine wp_loadSegments rest hu hsol' ?_
          intro ok sz' w T'' g'' hsol''
          exact hQ ok sz' w T'' (g.trans (g'.trans g'')) hsol''
        | false =>
          exact hQ false sz1 u T' (g.trans g') hsol'
    rw [wp_bind]
    refine wp_uvmalloc_solid h hsol hperm ?_ ?_ ?_
    · intro hlt
      rw [if_neg (by omega)]
      exact hload s T sz (Goes.refl h) hsol (le_of_lt hlt)
    · intro t T' g hleaf
      refine hQ false sz t T' g ?_
      rw [hleaf]
      exact hsol
    · intro t T' hle g hsol'
      rcases Nat.eq_zero_or_pos (ph.vaddr + ph.memsz).toNat with h0 | hpos
      · rw [if_pos h0]
        refine hQ false sz t T' g ?_
        rw [show sz = (ph.vaddr + ph.memsz).toNat by omega]
        exact hsol'
      · rw [if_neg (by omega)]
        exact hload t T' _ g hsol' (le_refl _)

/-! ## The stack -/

/-- The pages of the rest of a copy are pages of the whole. -/
theorem next_chunk {dstva len : Nat} (h1 : (PGROUNDDOWN dstva + PGSIZE) / PGSIZE ≤ v)
    (h2 : v * PGSIZE < PGROUNDDOWN dstva + PGSIZE +
      (len - min (PGSIZE - (dstva - PGROUNDDOWN dstva)) len)) :
    dstva / PGSIZE ≤ v ∧ v * PGSIZE < dstva + len := by
  unfold PGROUNDDOWN at h1 h2
  simp only [PGSIZE] at h1 h2 ⊢
  omega

/-- `copyout` to pages that are there, in a page table that need not be the process's own. -/
theorem wp_copyoutLoop_mapped {own ownsz : Nat} {data : Nat → (Nat → Nat) → Nat → Nat} :
    ∀ (fuel : Nat) {s : Mach} {dstva len : Nat} {Q : Bool → Mach → Prop}, Holds s r T H →
      (∀ v, dstva / PGSIZE ≤ v → v * PGSIZE < dstva + len → UserPage T.leaf v) →
      (∀ b t, Goes r s T H t T H → Q b t) →
      wp Crit.total Q (copyoutLoop own ownsz r data fuel dstva len) s
  | 0, s, dstva, len, Q, h, _, hQ => hQ true s (Goes.refl h)
  | fuel + 1, s, dstva, len, Q, h, hpages, hQ => by
    have hret : ∀ b, Q b s := fun b => hQ b s (Goes.refl h)
    unfold copyoutLoop
    rcases Nat.eq_zero_or_pos len with h0 | hpos
    · rw [if_pos h0]
      exact hret true
    have hfirst : UserPage T.leaf (dstva / PGSIZE) := by
      refine hpages _ (le_refl _) ?_
      have := Nat.div_mul_le_self dstva PGSIZE
      omega
    have hmax := user_lt_MAXVA hfirst.1
    rw [if_neg (by omega)]
    show wp Crit.total Q (if dstva / PGSIZE * PGSIZE ≥ MAXVA then pure false else _) s
    rw [if_neg (by omega), wp_bind]
    unfold userPage
    rw [wp_bind]
    refine wp_walkaddr_user h.rep hfirst ?_
    simp only [wp_pure, wp_bind]
    refine wp_walk_valid h.rep hmax hfirst.2.1 fun p _ => ?_
    simp only [wp_bind]
    refine wp_load _ ?_
    split
    · exact hret false
    · refine ⟨trivial, ?_⟩
      have g := Goes.writePage h (mem_pages hfirst.1 hfirst.2.1)
        (data dstva (s.mem (PTE2PA (T.leaf (dstva / PGSIZE)))))
      refine wp_copyoutLoop_mapped fuel (h.goes g) ?_ ?_
      · intro v h1 h2
        obtain ⟨h3, h4⟩ := next_chunk h1 h2
        exact hpages v h3 h4
      · intro b t g'
        exact hQ b t (g.trans g')

/-- The new stack pointer is below the old one by at least the bytes pushed. -/
theorem pushed_le (sp : Nat) {n base : Nat} (hsp : sp < 2 ^ 64) (hn : n ≤ PGSIZE) (hb : PGSIZE ≤ base)
    (hsb : base ≤ sp) : pushed sp n + n ≤ sp := by
  unfold pushed sub64
  omega

theorem wp_pushArgs {own ownsz base : Nat} {data : Nat → (Nat → Nat) → Nat → Nat}
    (hbase : PGSIZE ≤ base) (htop : sz < 2 ^ 64)
    (hpages : ∀ v, base / PGSIZE ≤ v → v * PGSIZE < sz → UserPage T.leaf v) :
    ∀ (argv : List Nat) {s : Mach} {argc sp : Nat} {Q : Option Nat → Mach → Prop},
      Holds s r T H → (∀ l ∈ argv, l < PGSIZE) → base ≤ sp → sp ≤ sz → argc ≤ MAXARG →
      (∀ t, Goes r s T H t T H → Q none t) →
      (∀ sp' t, base ≤ sp' → sp' ≤ sz → argc + argv.length ≤ MAXARG → Goes r s T H t T H →
        Q (some sp') t) →
      wp Crit.total Q (pushArgs own ownsz r base data argv argc sp) s
  | [], s, argc, sp, Q, h, _, h1, h2, hc, _, hs => hs sp s h1 h2 hc (Goes.refl h)
  | len :: rest, s, argc, sp, Q, h, hlen, h1, h2, hc, hn, hs => by
    unfold pushArgs
    split
    · exact hn s (Goes.refl h)
    split
    · exact hn s (Goes.refl h)
    have hl := hlen len List.mem_cons_self
    have hle := pushed_le sp (n := len + 1) (by omega) hl hbase h1
    rw [wp_bind]
    refine wp_copyoutLoop_mapped _ h ?_ ?_
    · intro v h3 h4
      refine hpages v (Nat.le_trans (Nat.div_le_div_right (by omega)) h3) (by omega)
    · intro b t g
      cases b with
      | false => exact hn t g
      | true =>
        refine wp_pushArgs hbase htop hpages rest (h.goes g) ?_ (by omega) (by omega) (by omega)
          ?_ ?_
        · intro l hmem
          exact hlen l (List.mem_cons_of_mem _ hmem)
        · intro u g'
          exact hn u (g.trans g')
        · intro sp' u h3 h4 h5 g'
          refine hs sp' u h3 h4 ?_ (g.trans g')
          rw [List.length_cons]
          omega

theorem wp_pushStack {own ownsz : Nat} {argv : List Nat} {Q : Option Nat → Mach → Prop}
    (h : Holds s r T H) (hlen : ∀ l ∈ argv, l < PGSIZE) (hsz : 2 * PGSIZE ≤ sz) (htop : sz < 2 ^ 64)
    (hpages : ∀ v, (sz - USERSTACK * PGSIZE) / PGSIZE ≤ v → v * PGSIZE < sz → UserPage T.leaf v)
    (hn : ∀ t, Goes r s T H t T H → Q none t) (hs : ∀ sp t, Goes r s T H t T H → Q (some sp) t) :
    wp Crit.total Q (pushStack own ownsz r sz data argv) s := by
  obtain ⟨base, hb⟩ : ∃ base, base = sz - USERSTACK * PGSIZE := ⟨_, rfl⟩
  have hbase : PGSIZE ≤ base := by
    rw [hb]
    simp only [USERSTACK] at hsz ⊢
    omega
  unfold pushStack
  rw [← hb] at hpages ⊢
  rw [wp_bind]
  refine wp_pushArgs hbase htop hpages argv h hlen (by omega) (le_refl _) (Nat.zero_le _) hn ?_
  intro sp t h1 h2 h3 g
  have hcount : (argv.length + 1) * 8 ≤ PGSIZE := by
    simp only [MAXARG, PGSIZE] at h3 ⊢
    omega
  have hle := pushed_le sp (by omega) hcount hbase h1
  dsimp only
  rcases Nat.lt_or_ge (pushed sp ((argv.length + 1) * 8)) base with hlow | hroom
  · rw [if_pos hlow]
    exact hn t g
  rw [if_neg (Nat.not_lt.mpr hroom), wp_bind]
  refine wp_copyoutLoop_mapped _ (h.goes g) ?_ ?_
  · intro v h4 h5
    exact hpages v (Nat.le_trans (Nat.div_le_div_right hroom) h4) (by omega)
  · intro b u g'
    cases b with
    | false => exact hn u (g.trans g')
    | true => exact hs _ u (g.trans g')

/-! ## The whole image -/

/-- The size may be rounded up. -/
theorem Solid.rounded (h : Solid T.leaf sz tramp tf) :
    Solid T.leaf (npages sz * PGSIZE) tramp tf := by
  have hnp := h.space.npages_le
  refine ⟨h.space.change ?_ (fun _ _ => rfl) ?_, ?_⟩
  · exact Nat.mul_le_mul_right PGSIZE hnp
  · intro v hv hV
    rw [npages_mul]
    exact ⟨h.space.below v hv hV, h.space.user v hv hV⟩
  · rw [npages_mul]
    exact h.dense

/-- The guard page is taken from the user. -/
theorem Solid.guarded (h : Solid T.leaf ((a + 2) * PGSIZE) tramp tf) {leaf' : Nat → Nat}
    (hl : leaf' = update T.leaf a (noUser (T.leaf a))) :
    Space leaf' ((a + 2) * PGSIZE) (some a) tramp tf := by
  have hnp := h.space.npages_le
  rw [npages_mul] at hnp
  refine h.space.change h.space.size ?_ ?_
  · intro v hv
    rw [hl, update_of_ne (by omega)]
  · intro v hv hV
    rw [npages_mul]
    rw [hl] at hV ⊢
    rcases eq_or_ne v a with heq | hne
    · rw [heq]
      exact ⟨by omega, Or.inr rfl⟩
    · rw [update_of_ne hne] at hV ⊢
      have hb := h.space.below v hv hV
      rw [npages_mul] at hb
      refine ⟨hb, Or.inl ?_⟩
      have hu := h.userPage (by rw [npages_mul]; exact hb)
      exact hu.2.2

theorem wp_execImage {Q : Option (Nat × Nat × Nat) → Mach → Prop} {own ownsz : Nat} {img : Image}
    {argv : List Nat} (h : Hands s H) (hlen : ∀ l ∈ argv, l < PGSIZE)
    (hn : ∀ t, Moves s H t H → Q none t)
    (hs : ∀ r sz sp t T, Moves s H t (Own r T + H) → Rep t.mem r T →
      Space T.leaf sz (some (sz / PGSIZE - (USERSTACK + 1))) s.trampoline tf →
      Q (some (r, sz, sp)) t) : wp Crit.total Q (execImage own ownsz tf img data argv) s := by
  unfold execImage
  split
  · exact hn s (Moves.refl s H)
  rw [wp_bind]
  unfold loadImage
  split
  · exact hn s (Moves.refl s H)
  rw [wp_bind]
  refine wp_procPagetable h hn ?_
  intro r t T m hrep hsp
  have ht : Holds t r T H := (h.moves m).holds hrep
  -- giving the new page table back, from any later state
  have hbad : ∀ u T' sz' guard', Goes r t T H u T' H → Space T'.leaf sz' guard' s.trampoline tf →
      wp Crit.total (fun _ => Q none) (procFreepagetable r sz') u := by
    intro u T' sz' guard' g hsp'
    refine wp_procFreepagetable (ht.goes g) hsp' ?_
    intro w m'
    exact hn w (m.trans (g.moves.trans m'))
  have hsol : Solid T.leaf 0 s.trampoline tf := by
    refine ⟨hsp, ?_⟩
    intro v hv
    exact absurd hv (Nat.not_lt_zero v)
  simp only [wp_bind]
  refine wp_loadSegments img.phdrs ht hsol ?_
  intro ok sz u T' g hsol'
  have hu := ht.goes g
  cases ok with
  | false =>
    rw [if_pos rfl, wp_bind]
    exact hbad u T' sz none g hsol'.space
  | true =>
    rw [if_neg (by simp), wp_pure]
    unfold finishImage
    rw [wp_bind, PGROUNDUP_eq]
    have hround := hsol'.rounded
    refine wp_uvmalloc_solid hu hround (by decide) ?_ ?_ ?_
    · intro hlt
      exact absurd hlt (Nat.not_lt.mpr (Nat.le_add_right _ _))
    · intro w T'' g' hleaf
      refine (wp_bind _ _).mpr (hbad w T'' _ none (g.trans g') ?_)
      rw [hleaf]
      exact hround.space
    · intro w T'' _ g' hsol''
      rw [← Nat.add_mul] at hsol'' ⊢
      have hw := hu.goes g'
      have hpage : UserPage T''.leaf (npages sz) :=
        hsol''.userPage (by rw [npages_mul]; exact Nat.lt_add_of_pos_right (by decide))
      have hsz := hsol''.space.size
      rw [if_neg (by simp only [PGSIZE]; omega), wp_bind, ← Nat.sub_mul, Nat.add_sub_cancel]
      refine wp_uvmclear hw hpage.1 hpage.2.1 ?_
      intro x T3 g'' hleaf3
      have hx := hw.goes g''
      have hsp3 := hsol''.guarded hleaf3
      have htrans := g.trans (g'.trans g'')
      rw [wp_bind]
      refine wp_pushStack hx hlen ?_ ?_ ?_ ?_ ?_
      · exact Nat.mul_le_mul_right _ (Nat.le_add_left _ _)
      · refine Nat.lt_of_le_of_lt hsz (by decide)
      · intro v h1 h2
        -- the page above the guard page
        have hv : v = npages sz + 1 := by
          simp only [USERSTACK, PGSIZE] at h1 h2
          omega
        rw [hv, hleaf3]
        obtain ⟨hl, hV, hU⟩ := hsol''.userPage
          (by rw [npages_mul]; exact Nat.lt_succ_self _)
        unfold UserPage
        rw [update_of_ne (Nat.succ_ne_self _)]
        exact ⟨hl, hV, hU⟩
      · intro y g3
        exact (wp_bind _ _).mpr (hbad y T3 _ _ (htrans.trans g3) hsp3)
      · intro sp y g3
        refine hs r _ sp y T3 (m.trans (htrans.trans g3).moves) (hx.goes g3).rep ?_
        rw [Nat.mul_div_cancel _ (by decide)]
        exact hsp3

/-! ## The arguments of `sys_exec` -/

theorem wp_fetchArgs {uargv : Nat} {user : Nat → UserArg} :
    ∀ (n : Nat) {s : Mach} {T : Tree} {i : Nat} {pages lens : List Nat}
      {Q : List Nat × Option (List Nat) → Mach → Prop},
      Holds s r T (↑pages + H) → Space T.leaf sz guard tramp tf → (∀ l ∈ lens, l < PGSIZE) →
      (∀ (pages' : List Nat) o t T', Goes r s T (↑pages + H) t T' (↑pages' + H) →
        Unseen sz s T H t T' → (∀ lens', o = some lens' → ∀ l ∈ lens', l < PGSIZE) →
        Q (pages', o) t) →
      wp Crit.total Q (fetchArgs r sz uargv user n i pages lens) s
  | 0, s, T, i, pages, lens, Q, h, hsp, _, hQ => by
    refine hQ pages none s T (Goes.refl h) (Unseen.refl _ _ _ _) ?_
    intro lens' hc
    cases hc
  | n + 1, s, T, i, pages, lens, Q, h, hsp, hlens, hQ => by
    have hfail : ∀ (pages' : List Nat) t T', Goes r s T (↑pages + H) t T' (↑pages' + H) →
        Unseen sz s T H t T' → Q (pages', none) t := by
      intro pages' t T' g hu
      refine hQ pages' none t T' g hu ?_
      intro lens' hc
      cases hc
    have happend : ∀ pg : Nat, (pg ::ₘ (↑pages + H) : Multiset Nat) = ↑(pages ++ [pg]) + H := by
      intro pg
      rw [← Multiset.coe_add, add_right_comm, ← Multiset.singleton_add]
      exact add_comm _ _
    have hsub : H ⊆ ↑pages + H := Multiset.subset_of_le (Multiset.le_add_left _ _)
    unfold fetchArgs
    dsimp only
    split
    · exact hfail pages s T (Goes.refl h) (Unseen.refl _ _ _ _)
    rw [wp_bind]
    refine wp_copyin h hsp.npages_le hsp.highNoUser ?_
    intro b t T' g hu
    have ht := h.goes g
    have hsp' := hsp.faulted hu.faulted
    cases b with
    | false =>
      exact hfail pages t T' g (hu.mono hsub)
    | true =>
      rw [if_pos rfl]
      have hnone : ∀ u, Goes r t T' (↑pages + H) u T' (↑pages + H) →
          Keeps (T'.pages + (↑pages + H)) t u → Q (pages, none) u := by
        intro u g' hk
        exact hfail pages u T' (g.trans g') ((hu.trans (Unseen.same rfl hk)).mono hsub)
      -- a page for the string, whatever it holds then
      have hpage : ∀ (text : Nat → Nat) (pg : Nat) (u : Mach),
          Goes r t T' (↑pages + H) u T' (pg ::ₘ (↑pages + H)) →
          Keeps (T'.pages + (↑pages + H)) t u →
          Goes r s T (↑pages + H) (u.setPage pg text) T'
            (↑(pages ++ [pg]) + H) ∧
          Unseen sz s T H (u.setPage pg text) T' := by
        intro text pg u g' hk
        have hu' := ht.goes g'
        have hpg := Multiset.mem_cons_self pg (↑pages + H)
        have hkeep := hk.trans (Keeps.write hu'.held_not_kept text)
        refine ⟨?_, (hu.trans (Unseen.same rfl hkeep)).mono hsub⟩
        rw [← happend]
        exact g.trans (g'.trans (Goes.scribble hu' (hu'.held_not_tree hpg)
          (Multiset.mem_add.mpr (Or.inr hpg)) text))
      cases user i with
      | null =>
        refine hQ pages (some lens) t T' g (hu.mono hsub) ?_
        intro lens' hc
        cases hc
        exact hlens
      | bad text =>
        rw [wp_bind]
        refine wp_kalloc_held ht hnone ?_
        intro pg u g' hk
        obtain ⟨g'', hu''⟩ := hpage text pg u g' hk
        exact ⟨trivial, hfail _ _ T' g'' hu''⟩
      | str len text =>
        rw [wp_bind]
        refine wp_kalloc_held ht hnone ?_
        intro pg u g' hk
        obtain ⟨g'', hu''⟩ := hpage text pg u g' hk
        refine ⟨trivial, wp_fetchArgs n (h.goes g'') hsp' ?_ ?_⟩
        · intro l hl
          rcases List.mem_append.mp hl with hl | hl
          · exact hlens l hl
          · rw [List.mem_singleton.mp hl]
            exact len.isLt
        · intro pages' o w T'' g3 hu3 hlens3
          exact hQ pages' o w T'' (g''.trans g3) (hu''.trans hu3) hlens3

theorem wp_each_kfree : ∀ (pages : List Nat) {s : Mach} {F : Multiset Nat}
    {Q : Unit → Mach → Prop}, Hands s (↑pages + F) →
    (∀ t, Moves s (↑pages + F) t F → Q () t) → wp Crit.total Q (each pages kfree) s
  | [], s, F, Q, _, hQ => by
    refine hQ s ?_
    have h0 : (↑([] : List Nat) : Multiset Nat) + F = F := zero_add F
    rw [h0]
    exact Moves.refl s F
  | x :: pages, s, F, Q, h, hQ => by
    have hcons : (↑(x :: pages) : Multiset Nat) + F = x ::ₘ (↑pages + F) := by
      rw [← Multiset.cons_coe, Multiset.cons_add]
    rw [hcons] at h hQ
    show wp Crit.total Q ((kfree x).bind fun _ => each pages kfree) s
    rw [wp_bind']
    refine wp_kfree_moves h ?_
    intro t m
    refine wp_each_kfree pages (h.moves m) ?_
    intro u m'
    exact hQ u (m.trans m')

end exec

end Xv6
