/-
  Crash atomicity of the redo log.

  `Crashed start d H` collects every way a device can look when the machine comes up: as mkfs left
  it, after a crash at any moment of a recovery, and after a crash at any moment of a transaction
  that follows a recovery and any number of completed transactions.  `H` is what the home blocks
  held after the last transaction whose first header write had reached the device.

  The invariant `Recovers start H d` relates header, log area and home area: the blocks the header
  names hold their contents of `H` in the log, the others at home.  Every single write of
  `recoverFromLog` keeps it; the writes of `commit` keep it for the old contents up to the first
  header write and for the new contents from there on.  Stale numbers in the header behind its
  first `n` and stale log blocks do not occur in it.

  `recoverFromLog_restores` is the result.
-/
import Xv6.Log.Spec

namespace Xv6

open Lib Lib.Prog

/-! ## The crash invariant -/

/-- A recovery on the device `d` restores the home contents `H`. -/
structure Recovers (start : Nat) (H d : Nat → Block) : Prop where
  len : headN (d start) ≤ LOGBLOCKS
  home : ∀ c ∈ decodeHead (d start), Home start c
  log : ∀ k, k < headN (d start) → d (start + k + 1) = H ((decodeHead (d start)).getD k 0)
  keep : ∀ c, Home start c → c ∉ decodeHead (d start) → d c = H c

theorem decodeHead_of_headN {d : Block} (h : headN d = 0) : decodeHead d = [] := by
  unfold decodeHead
  rw [h]
  rfl

variable {start me : Nat} {H : Nat → Block} {s : Io}

/-- An empty header: the home blocks speak for themselves. -/
theorem Recovers.of_headN {d : Nat → Block} (h : headN (d start) = 0)
    (hd : ∀ c, Home start c → d c = H c) : Recovers start H d := by
  constructor
  · rw [h]; exact Nat.zero_le _
  · rw [decodeHead_of_headN h]
    intro c hc
    cases hc
  · intro k hk
    omega
  · intro c hc _
    exact hd c hc

/-- Installing blocks of the header keeps the invariant. -/
theorem Recovers.installing {d d' : Disk} (h : Recovers start H d.data)
    (hi : Installing start (decodeHead (d.data start)) d d') : Recovers start H d'.data := by
  have hstart : d'.data start = d.data start :=
    hi.keep start fun hc => (h.home _ hc).ne_start rfl
  constructor
  · rw [hstart]; exact h.len
  · rw [hstart]; exact h.home
  · rw [hstart]
    intro k hk
    rw [hi.keep _ fun hc => (h.home _ hc).ne_log (Nat.lt_of_lt_of_le hk h.len) rfl]
    exact h.log k hk
  · rw [hstart]
    intro c hc hcb
    rw [hi.keep c hcb]
    exact h.keep c hc hcb

/-- The home contents after the blocks `bs` got the contents `V`. -/
def overlay (bs : List Nat) (V H : Nat → Block) (c : Nat) : Block := if c ∈ bs then V c else H c

/-- The phases of a commit: the old contents before the first header write, the new ones after. -/
theorem CommitPhase.recovers {bs : List Nat} {V : Nat → Block} {d₀ d : Disk}
    (h : CommitPhase start bs V d₀ d) (hhead : headN (d₀.data start) = 0)
    (hH : ∀ c, Home start c → d₀.data c = H c) (hbs : ∀ c ∈ bs, Home start c)
    (hlen : bs.length ≤ LOGBLOCKS) :
    Recovers start (if d₀.heads start < d.heads start then overlay bs V H else H) d.data := by
  rcases h with h | h | h
  · rw [if_neg (by rw [h.heads]; exact lt_irrefl _)]
    refine Recovers.of_headN ?_ ?_
    · rw [h.keep start (Or.inr rfl)]; exact hhead
    · intro c hc
      rw [h.keep c (Or.inl hc)]; exact hH c hc
  · rw [if_pos h.heads]
    have hn : headN (d.data start) = bs.length := by rw [← decodeHead_length, h.head]
    constructor
    · rw [hn]; exact hlen
    · rw [h.head]; exact hbs
    · rw [hn, h.head]
      intro k hk
      rw [h.log k hk, overlay, if_pos (getD_mem hk)]
    · rw [h.head]
      intro c hc hcb
      rw [h.keep c hc hcb, overlay, if_neg hcb]
      exact hH c hc
  · rw [if_pos h.heads]
    refine Recovers.of_headN h.head ?_
    intro c hc
    rw [h.home c hc, overlay]
    split
    · rfl
    · exact hH c hc

/-! ## Recovery -/

/-- A system at rest between transactions, with the home contents `H`. -/
structure Ready (start : Nat) (H : Nat → Block) (s : Io) : Prop where
  inv : CacheInv [] (fun _ => False) s
  unlocked : s.Unlocked
  log : s.log = ⟨start, 0, false, []⟩
  head : headN (s.disk.data start) = 0
  home : ∀ c, Home start c → s.disk.data c = H c

theorem boot_cacheInv (start : Nat) (d : Nat → Block) :
    CacheInv [] (fun _ => False) (Io.boot start d) := by
  have hno : ∀ i b, ¬ ((Io.boot start d).buf i).Is ROOTDEV b := by
    intro i b h
    exact absurd h.1 (by simp [Io.boot, Io.buf])
  refine ⟨fun i j b hi => absurd hi (hno i b), fun i b hi => absurd hi (hno i b), ?_, ?_,
    fun i b hi => absurd hi (hno i b)⟩
  · intro i
    simp [Io.boot, Io.buf, Buf.pins, Buf.holds]
  · intro b hb
    cases hb

/-- Recovery is total, passes only through recoverable devices and restores the contents. -/
theorem wp_recoverFromLog {d : Nat → Block} (me : Nat) (h : Recovers start H d) :
    wp ⟨fun t => Recovers start H t.disk.data, fun _ => False, False⟩ (fun _ t => Ready start H t)
      (recoverFromLog me) (Io.boot start d) := by
  refine wp_seq (wp_readHead (boot_cacheInv start d) (fun _ => rfl) id (Or.inr (by decide))
    fun t ht => ?_) ?_
  · show Recovers start H t.disk.data
    rw [ht]; exact h
  rintro _ t ⟨ht, htu, htl, htd⟩
  replace htl : t.log = ⟨start, 0, false, decodeHead (d start)⟩ := htl
  have hrec : Recovers start H t.disk.data := by rw [htd]; exact h
  have hdata : t.disk.data = d := by rw [htd]; rfl
  have hstart : t.log.start = start := by rw [htl]
  have hblock : t.log.block = decodeHead (t.disk.data start) := by rw [htl, hdata]
  have hlen : t.log.block.length = headN (t.disk.data start) := by rw [hblock, decodeHead_length]
  have hhome : ∀ c ∈ t.log.block, Home t.log.start c := by
    rw [hblock, hstart]; exact hrec.home
  have hlogged : Logged t.log.start t.log.block H t.log.block.length t.disk := by
    rw [hlen, hblock, hstart]; exact hrec.log
  refine wp_seq (wp_installTrans true (ht.weaken fun _ => False.elim) htu hhome (by rw [hlen]; exact hrec.len) (fun h => by cases h) hlogged
    (Or.inr (by simp [pinsOf])) ?_) ?_
  · intro u hu _ _
    rw [hblock, hstart] at hu
    exact hrec.installing hu
  intro _ u hu
  have hinv : CacheInv [] (fun _ => False) u := by
    have hpin : (pinsOf true t.log.block).drop t.log.block.length = [] := by simp [pinsOf]
    have := hu.inv
    rw [hpin] at this
    exact this.weaken fun c hc => by simp at hc
  have hudisk := hu.disk
  rw [hblock, hstart] at hudisk
  have hrecu : Recovers start H u.disk.data := hrec.installing hudisk
  have huhome : ∀ c, Home start c → u.disk.data c = H c := by
    intro c hc
    by_cases hcb : c ∈ t.log.block
    · exact hu.done c (by rw [List.take_length]; exact hcb)
    · rw [hu.disk.keep c hcb]
      exact hrec.keep c hc (by rw [← hblock]; exact hcb)
  unfold clearLog
  rw [wp_bind, wp_update]
  refine ⟨hrecu, ?_⟩
  have hul : ({ u.log with block := [] } : Log) = ⟨start, 0, false, []⟩ := by
    rw [hu.log, htl]
  rw [hul]
  have hw : CacheInv [] (fun _ => False) { u with log := ⟨start, 0, false, []⟩ } :=
    ⟨hinv.uniq, hinv.valid, hinv.refs, hinv.pinned, hinv.coh⟩
  -- the last header write: an empty header over restored home blocks
  have hhead : ∀ e : Block, headN ((u.disk.write start (encodeHead e [])).data start) = 0 := by
    intro e
    rw [Disk.write_data, if_pos rfl]
    exact headN_encodeHead e [] (Nat.zero_le _)
  have hlast : ∀ (e : Block) c, Home start c →
      (u.disk.write start (encodeHead e [])).data c = H c := by
    intro e c hc
    rw [Disk.write_data, if_neg hc.ne_start]
    exact huhome c hc
  refine wp_mono (wp_writeHead hw hu.unlocked id (Or.inr (by decide)) ?_ ?_) ?_
  · intro x hd _ _
    show Recovers start H x.disk.data
    rw [hd]; exact hrecu
  · intro x hd _ _
    show Recovers start H x.disk.data
    rw [hd]; exact Recovers.of_headN (hhead _) (hlast _)
  · rintro _ x ⟨hx, hxu, hxl, hxd, -⟩
    exact ⟨hx, hxu, hxl, by rw [hxd]; exact hhead _, by rw [hxd]; exact hlast _⟩

/-! ## Transactions -/

/-- One update of a transaction: a block number and what is done to the block's contents. -/
abbrev Write := Nat × (Block → Block)

/-- A block is read, changed, logged and released. -/
def logUpdate (me : Nat) (w : Write) : IoM Unit := do
  let i ← bread me ROOTDEV w.1
  modifyData i w.2
  logWrite i
  brelse me i

def transaction (me : Nat) (ws : List Write) : IoM Unit := do
  beginOp
  each ws (logUpdate me)
  endOp me

/-- The contents after the updates. -/
def applyWrites : (Nat → Block) → List Write → (Nat → Block)
  | H, [] => H
  | H, w :: ws => applyWrites (fun c => if c = w.1 then w.2 (H c) else H c) ws

/-- The updated blocks lie outside the log area. -/
def WritesHome (start : Nat) (ws : List Write) : Prop :=
  ∀ w ∈ ws, Home start w.1 ∧ w.1 < 2 ^ 32

/-- Inside a transaction: the device is still `d`, the cache shows the contents `H`. -/
structure InTransaction (start : Nat) (d : Disk) (H : Nat → Block) (s : Io) : Prop where
  ready : Committable s
  logstart : s.log.start = start
  outstanding : s.log.outstanding = 1
  committing : s.log.committing = false
  disk : s.disk = d
  view : ∀ c, Home start c → s.view c = H c
  only : ∀ c, Home start c → c ∉ s.log.block → d.data c = H c

theorem wp_logUpdate {d : Disk} {w : Write} {C : Crit Panic Io} (hw : Home start w.1 ∧ w.1 < 2 ^ 32)
    (h : InTransaction start d H s) (hp : ∀ m, C.panic m) (hC : ∀ t : Io, t.disk = d → C.inv t) :
    wp C (fun _ t => InTransaction start d (fun c => if c = w.1 then w.2 (H c) else H c) t)
      (logUpdate me w) s := by
  have hinv := h.ready.inv
  refine wp_seq (wp_bread hinv (fun t ht _ _ => hC t (ht.trans h.disk)) (Or.inl (hp _))
    (Or.inr fun i _ => h.ready.unlocked i)) ?_
  rintro i t ⟨ht, g⟩
  have htd : t.disk = d := g.disk.trans h.disk
  have htl : (t.buf i).lock ≠ none := by rw [g.lock]; simp
  refine wp_seq (wp_modifyData ht htl fun x hx _ _ => hC x (hx.trans htd)) ?_
  rintro _ u ⟨hu, rfl⟩
  have hv : (t.buf i).data = H w.1 := by rw [g.data, h.view _ hw.1]
  rw [hv] at hu ⊢
  generalize hu' : t.setData i (w.2 (H w.1)) = u at hu ⊢
  have hul : u.log = s.log := by rw [← hu', setData_log, g.log]
  have hui : (u.buf i).Is ROOTDEV w.1 := by rw [← hu', setData_buf_same]; exact g.is
  have hulock : (u.buf i).lock = some me := by rw [← hu', setData_buf_same]; exact g.lock
  have huv : ∀ c, Home start c → u.view c = if c = w.1 then w.2 (H c) else H c := by
    intro c hc
    rw [← hu', view_setData ht.uniq g.is]
    split
    · rename_i hcw; rw [hcw]
    · rw [g.view hinv ht ?_, h.view c hc]
      exact (Decidable.em (c ∈ s.log.block)).symm.imp_right Or.inl
  rw [← hul] at hu
  refine wp_seq (wp_logWrite hu hui (Or.inl (hp _)) (Or.inl (hp _)) ?_) ?_
  · intro x hx _
    refine hC x ?_
    rw [hx.disk, ← hu']
    exact htd
  rintro _ x ⟨hx, lw, hlen⟩
  rw [hul] at hx hlen
  have hxl : x.log = { s.log with block := absorb s.log.block w.1 } := by rw [lw.log, hul]
  have hxd : x.disk = d := by
    rw [lw.disk, ← hu']
    exact htd
  obtain ⟨r, hxi⟩ := lw.buf i
  have hx' := hx.weaken (Y := (· ∈ absorb s.log.block w.1)) fun c hc => mem_absorb.mpr (Or.inl hc)
  refine wp_mono (wp_brelse hx' (by rw [hxi]; exact hulock) ?_
    fun y hy _ _ => hC y (hy.trans hxd)) ?_
  · intro c hc hX
    rw [hxi] at hc
    rw [Buf.Is.inj hc hui] at hX
    exact absurd (mem_absorb.mpr (Or.inr rfl)) hX
  · rintro _ y ⟨hy, p⟩
    have hyl : y.log = { s.log with block := absorb s.log.block w.1 } := p.log.trans hxl
    have hyd : y.disk = d := p.disk.trans hxd
    have hmem : ∀ c, c ∈ y.log.block ↔ c ∈ s.log.block ∨ c = w.1 := by
      intro c
      rw [hyl]
      exact mem_absorb
    refine ⟨⟨?_, ?_, ?_, ?_, ?_, ?_⟩, ?_, ?_, ?_, hyd, ?_, ?_⟩
    · rw [hyl]; exact hy
    · intro k
      by_cases hki : k = i
      · subst hki; rw [p.buf]
      · obtain ⟨r', hxk⟩ := lw.buf k
        rw [p.others k hki, hxk, ← hu', setData_buf_ne _ hki, g.others k hki]
        exact h.ready.unlocked k
    · intro c hc
      rw [hyl, show ({ s.log with block := absorb s.log.block w.1 } : Log).start = start from
        h.logstart]
      rcases (hmem c).mp hc with hc | rfl
      · have := h.ready.home c hc
        rw [h.logstart] at this
        exact this
      · exact hw
    · rw [hyl]
      exact (length_absorb_le _).trans hlen
    · rw [hyl]; exact nodup_absorb _ h.ready.nodup
    · rw [hyl, hyd, ← h.disk]; exact h.ready.head
    · rw [hyl]; exact h.logstart
    · rw [hyl]; exact h.outstanding
    · rw [hyl]; exact h.committing
    · intro c hc
      rw [p.view hx.uniq, lw.view, huv c hc]
    · intro c hc hcb
      rw [hmem] at hcb
      rw [if_neg fun hcw => hcb (Or.inr hcw)]
      exact h.only c hc fun hcs => hcb (Or.inl hcs)

theorem Recovers.congr {H' d : Nat → Block} (h : Recovers start H d)
    (hH : ∀ c, Home start c → H c = H' c) : Recovers start H' d := by
  refine ⟨h.len, h.home, ?_, ?_⟩
  · intro k hk
    rw [h.log k hk]
    exact hH _ (h.home _ (getD_mem (by rw [decodeHead_length]; exact hk)))
  · intro c hc hcb
    rw [h.keep c hc hcb, hH c hc]

theorem Ready.recovers (h : Ready start H s) : Recovers start H s.disk.data :=
  Recovers.of_headN h.head h.home

theorem Ready.view (h : Ready start H s) {c : Nat} (hc : Home start c) : s.view c = H c := by
  rw [h.inv.view_eq_disk h.unlocked id, h.home c hc]

/-- What the home blocks hold after a crash in state `t` of a transaction that began in `s`: the
    transaction counts once a header write has reached the device. -/
def crashContents (start : Nat) (H : Nat → Block) (ws : List Write) (s t : Io) : Nat → Block :=
  if s.disk.heads start < t.disk.heads start then applyWrites H ws else H

theorem crashContents_of_disk {ws : List Write} {t : Io} (h : t.disk = s.disk) :
    crashContents start H ws s t = H := by
  unfold crashContents
  rw [h, if_neg (lt_irrefl _)]

/-- The updates of a transaction, all on the cache. -/
theorem wp_logUpdates {d : Disk} {C : Crit Panic Io} (hp : ∀ m, C.panic m)
    (hC : ∀ t : Io, t.disk = d → C.inv t) (ws : List Write) :
    ∀ {H : Nat → Block} {s : Io}, WritesHome start ws → InTransaction start d H s →
      wp C (fun _ t => InTransaction start d (applyWrites H ws) t) (each ws (logUpdate me)) s := by
  induction ws with
  | nil =>
    intro H s _ h
    exact h
  | cons w ws ih =>
    intro H s hws h
    simp only [each]
    rw [wp_bind']
    refine wp_mono (wp_logUpdate (hws w List.mem_cons_self) h hp hC) ?_
    intro _ t ht
    exact ih (fun v hv => hws v (List.mem_cons_of_mem w hv)) ht

/-- A transaction never blocks; it may panic, if its blocks do not fit, but whatever state it
    passes through recovers to the old or the new contents. -/
theorem wp_transaction {ws : List Write} (h : Ready start H s) (hws : WritesHome start ws) :
    wp ⟨fun t => Recovers start (crashContents start H ws s t) t.disk.data, fun _ => True, False⟩
      (fun _ t => Ready start (applyWrites H ws) t) (transaction me ws) s := by
  have hC : ∀ t : Io, t.disk = s.disk →
      Recovers start (crashContents start H ws s t) t.disk.data := by
    intro t ht
    rw [crashContents_of_disk ht, ht]
    exact h.recovers
  refine wp_seq (wp_beginOp (Or.inr ?_) (hC _ rfl)) ?_
  · rw [h.log]
    exact ⟨rfl, by simp⟩
  rintro _ t rfl
  have hlog : s.log.beginOp = ⟨start, 1, false, []⟩ := by rw [h.log]; rfl
  rw [hlog]
  have hin : InTransaction start s.disk H { s with log := ⟨start, 1, false, []⟩ } := by
    refine ⟨⟨?_, h.unlocked, ?_, Nat.zero_le _, List.nodup_nil, h.head⟩,
      rfl, rfl, rfl, rfl, fun c hc => h.view hc, fun c hc _ => h.home c hc⟩
    · have := h.inv.weaken (Y := (· ∈ ([] : List Nat))) fun _ => False.elim
      exact ⟨this.uniq, this.valid, this.refs, this.pinned, this.coh⟩
    · intro c hc
      cases hc
  refine wp_seq (wp_logUpdates (fun _ => trivial) hC ws hws hin) ?_
  intro _ t ht
  have hblock : ∀ c ∈ t.log.block, Home start c := by
    intro c hc
    rw [← ht.logstart]
    exact (ht.ready.home c hc).1
  have hcontents : ∀ c, Home start c →
      overlay t.log.block t.view H c = applyWrites H ws c := by
    intro c hc
    unfold overlay
    by_cases hcb : c ∈ t.log.block
    · rw [if_pos hcb, ht.view c hc]
    · rw [if_neg hcb, ← h.home c hc, ht.only c hc hcb]
  refine wp_mono (wp_endOp ht.ready ht.outstanding ht.committing (Or.inl trivial) ?_) ?_
  · intro x hx _ _ _
    rw [ht.logstart, ht.disk] at hx
    have hrec := hx.recovers h.head h.home hblock ht.ready.len
    refine hrec.congr ?_
    intro c hc
    unfold crashContents
    split
    · exact hcontents c hc
    · rfl
  · intro _ x hx
    have hstart := ht.logstart
    refine ⟨hx.inv, hx.unlocked, by rw [hx.log, hstart], by rw [← hstart]; exact hx.head, ?_⟩
    intro c hc
    rw [hx.disk c (by rw [hstart]; exact hc), ht.disk, h.home c hc]
    exact hcontents c hc

/-! ## Crashes -/

/-- Completed transactions: from the state `s` with contents `H` to `s'` with contents `H'`. -/
inductive Session (start : Nat) (s : Io) (H : Nat → Block) : Io → (Nat → Block) → Prop
  | refl : Session start s H s H
  | step {t t' : Io} {H' : Nat → Block} (me : Nat) (ws : List Write) :
      Session start s H t H' → WritesHome start ws →
      (transaction me ws).run t = .done () t' → Session start s H t' (applyWrites H' ws)

/-- `Crashed start d H`: the machine comes up with the device `d`, and the last transaction whose
    first header write reached the device left the home contents `H`. -/
inductive Crashed (start : Nat) : (Nat → Block) → (Nat → Block) → Prop
  | mkfs {d : Nat → Block} : headN (d start) = 0 → Crashed start d d
  | recovering {d H : Nat → Block} {t : Io} (me : Nat) : Crashed start d H →
      Passes (recoverFromLog me) (Io.boot start d) t → Crashed start t.disk.data H
  | running {d H H' : Nat → Block} {s s' t : Io} (me me' : Nat) (ws : List Write) :
      Crashed start d H → (recoverFromLog me).run (Io.boot start d) = .done () s →
      Session start s H s' H' → WritesHome start ws → Passes (transaction me' ws) s' t →
      Crashed start t.disk.data (crashContents start H' ws s' t)

theorem Session.ready {s' : Io} {H' : Nat → Block} (h : Session start s H s' H')
    (hs : Ready start H s) : Ready start H' s' := by
  induction h with
  | refl => exact hs
  | step me ws _ hws hrun ih =>
    have := wp_run_done (wp_transaction ih hws) hrun
    exact this

theorem Crashed.recovers {d : Nat → Block} (h : Crashed start d H) : Recovers start H d := by
  induction h with
  | mkfs hd => exact Recovers.of_headN hd fun _ _ => rfl
  | recovering me _ hp ih =>
    rcases wp_passes (wp_recoverFromLog me ih) hp with rfl | hinv
    · exact ih
    · exact hinv
  | running me me' ws _ hrec hses hws hp ih =>
    have hboot := wp_run_done (wp_recoverFromLog me ih) hrec
    have hready := hses.ready hboot
    rcases wp_passes (wp_transaction hready hws) hp with rfl | hinv
    · rw [crashContents_of_disk rfl]
      exact hready.recovers
    · exact hinv

/-- Whenever the machine comes up, after any number of crashes during commits and recoveries,
    the recovery completes, every home block holds its contents after the last committed
    transaction, and the header on the device is empty. -/
theorem recoverFromLog_restores {start : Nat} {d H : Nat → Block} (h : Crashed start d H)
    (me : Nat) : ∃ s, (recoverFromLog me).run (Io.boot start d) = .done () s ∧
      (∀ c, Home start c → s.disk.data c = H c) ∧ headN (s.disk.data start) = 0 := by
  have hwp := wp_crit (D := Crit.total) (wp_recoverFromLog me h.recovers)
    (fun _ _ => trivial) (fun _ => id) id
  obtain ⟨_, s, hrun, hs⟩ := wp_run_total hwp
  exact ⟨s, hrun, hs.home, hs.head⟩

/-- An update of two blocks. -/
def twoBlocks : List Write := [(40, fun d => d.putLE 0 4 7), (41, fun d => d.putLE 0 4 8)]

/-- On a device fresh from mkfs the machine recovers and goes down in the commit of `twoBlocks`,
    when the first `write_head` has reached the device; it comes up and goes down again in the
    recovery, with one of the two blocks installed. -/
def twoCrashes : Option (Io × Io × Io) := do
  let (_, s) ← (recoverFromLog 1).result (Io.boot 2 fun _ => Bytes.zero)
  let t ← (transaction 1 twoBlocks).firstWith (fun t => 1 < t.disk.heads 2) s
  let u ← (recoverFromLog 1).firstWith (fun u => 0 < u.disk.issued.length)
    (Io.boot 2 t.disk.data)
  some (s, t, u)

theorem recoverFromLog_restores_two :
    ∃ d, ((d 40).getLE 0 4, (d 41).getLE 0 4, headN (d 2)) = (7, 0, 2) ∧
      ∃ s, (recoverFromLog 1).run (Io.boot 2 d) = .done () s ∧
        (∀ c, Home 2 c → s.disk.data c = applyWrites (fun _ => Bytes.zero) twoBlocks c) ∧
        headN (s.disk.data 2) = 0 := by
  have hruns : twoCrashes.any (fun (s, t, u) => s.disk.heads 2 < t.disk.heads 2 ∧
      ((u.disk.data 40).getLE 0 4, (u.disk.data 41).getLE 0 4, headN (u.disk.data 2)) =
        (7, 0, 2)) = true := by
    decide +kernel
  obtain ⟨⟨s, t, u⟩, hruns, hd⟩ := (Option.any_eq_true _ _).mp hruns
  obtain ⟨hheads, hu⟩ := of_decide_eq_true hd
  obtain ⟨⟨_, s'⟩, hs, hruns⟩ := Option.bind_eq_some_iff.mp hruns
  obtain ⟨t', ht, hruns⟩ := Option.bind_eq_some_iff.mp hruns
  obtain ⟨u', hcrash, ⟨⟩⟩ := Option.bind_eq_some_iff.mp hruns
  have hhome : WritesHome 2 twoBlocks := by
    unfold WritesHome Home
    decide
  have h := Crashed.recovering 1 (Crashed.running 1 1 twoBlocks
    (Crashed.mkfs (by decide)) (run_of_result hs) Session.refl hhome (passes_firstWith ht))
    (passes_firstWith hcrash)
  unfold crashContents at h
  rw [if_pos hheads] at h
  exact ⟨u.disk.data, hu, recoverFromLog_restores h 1⟩

end Xv6
