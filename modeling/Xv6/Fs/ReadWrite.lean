/-
  `readi` and `writei`, between a file and memory that can be copied: `Src.ok` and `Dst.ok` say
  which positions can.

  `awp_readi`: the call returns how much the file has there, stores the bytes of the file and
  changes nothing.  `Written` is the effect of `writei` after `tot` bytes, and `awp_writeiLoop`
  says how its loop ends: with all bytes or with a full disk.  Each block that a write touches
  (`pieces`) adds at most one to the load of the transaction.
-/
import Xv6.Fs.Inode

namespace Xv6.Fs

open Lib

/-! ## Copying -/

/-- Can the byte at position `j` be read? -/
def Src.ok : Src → Nat → Bool
  | .kernel _, _ => true
  | .user um va, j => (um.page ((va + j) / PGSIZE)).isSome

/-- Can the byte at position `j` be written? -/
def Dst.ok : Dst → Nat → Bool
  | .kernel, _ => true
  | .user um va, j =>
    (um.page ((va + j) / PGSIZE)).isSome && um.writable ((va + j) / PGSIZE)

variable {m o : Nat}

section readi

variable {full : Prop} {ip off n : Nat} {a : Store} {dst : Dst} {Q : Int × Stored → Store → Prop}

/-- The file block of an offset below the size. -/
theorem Whole.block {blk : Nat → Block} {x : Dinode} (h : Whole blk x) (ho : o < x.size) :
    o / BSIZE < MAXFILE ∧ ref blk x (pos (o / BSIZE)) ≠ 0 := by
  constructor
  · exact (Nat.div_lt_iff_lt_mul (by decide)).mpr (Nat.lt_of_lt_of_le ho h.size)
  · refine h.holes _ (Nat.lt_of_le_of_lt ?_ ho)
    exact Nat.div_mul_le_self o BSIZE

end readi

/-! ## Writing a block of the file -/

section block

variable {full : Prop} {ip p : Nat} {a : Store}

theorem ref_writeBlock (h : FileInv ip a) (hp : p ≠ NDIRECT) (h0 : a.ref ip p ≠ 0) (v : Block)
    (q : Nat) : (a.write (a.ref ip p) v).ref ip q = a.ref ip q := by
  refine ref_congr ?_ q
  intro _
  refine Store.write_blk_ne ?_
  intro heq
  have heq : a.ref ip NDIRECT = a.ref ip p := Store.ref_ind.trans heq
  rw [← heq] at h0
  exact hp (h.inj heq h0).symm

/-- A block of the file is written. -/
theorem Extends.writeBlock (r : Ready a) (h : FileInv ip a) (hp : p ≠ NDIRECT)
    (h0 : a.ref ip p ≠ 0) (v : Block) : Extends ip a (a.write (a.ref ip p) v) := by
  have horder := r.geo.order
  have hrange := h.range h0
  have href := ref_writeBlock h hp h0 v
  have hk : Keeps a.mem.sb (a.nodes ip) (a.inum ip) a.blk (a.write (a.ref ip p) v).blk := by
    refine h.sound.keeps r.geo h.live ?_ ?_
    · intro c hc
      exact Store.write_blk_ne (by omega)
    · intro c _ _ hno
      refine Store.write_blk_ne ?_
      intro hc
      refine hno p ?_
      rw [a.nodes_inum]
      exact hc.symm
  have hused : ∀ c, c < a.mem.sb.size →
      used a.mem.sb (a.write (a.ref ip p) v).blk c = used a.mem.sb a.blk c := by
    intro c hc
    have := bblock_range hc
    exact used_congr (Store.write_blk_ne (by omega))
  refine ⟨r.write, h.same r.geo rfl rfl h.type h.fits hk href hused, rfl, ?_, ?_, hk, ?_⟩
  · intro c hc
    exact mem_absorb.mpr (Or.inl hc)
  · exact (Extends.refl r h).mem
  · intro q _
    exact href q

theorem byteAt_writeBlock (h : FileInv ip a) (hp : p ≠ NDIRECT) (h0 : a.ref ip p ≠ 0) (v : Block)
    (o : Nat) : byteAt (a.write (a.ref ip p) v).blk (a.copy ip) o =
      if pos (o / BSIZE) = p then v.byte (o % BSIZE) else byteAt a.blk (a.copy ip) o := by
  unfold byteAt
  have href := ref_writeBlock h hp h0 v (pos (o / BSIZE))
  rw [show ref (a.write (Store.ref a ip p) v).blk (a.copy ip) (pos (o / BSIZE)) =
    ref a.blk (a.copy ip) (pos (o / BSIZE)) from href]
  split
  · rename_i hpo
    rw [hpo]
    exact congrArg (fun d => Bytes.byte d _) Store.write_blk
  · rename_i hpo
    rw [Store.write_blk_ne]
    intro heq
    rw [← heq] at h0
    exact hpo (h.inj heq h0)

end block

/-! ## The loop of `writei` -/

/-- The first `tot` bytes of a write at `off` are in the file. -/
structure Written (ip off : Nat) (src : Nat → Byte) (tot : Nat) (a a' : Store) : Prop
    extends Extends ip a a' where
  byte : ∀ o, (a.ref ip (pos (o / BSIZE)) ≠ 0 ∨ off ≤ o ∧ o < off + tot) →
    a'.ref ip (pos (o / BSIZE)) ≠ 0 ∧ byteAt a'.blk (a'.copy ip) o =
      if off ≤ o ∧ o < off + tot then src (o - off) else byteAt a.blk (a.copy ip) o
  logged : ∀ o, off ≤ o → o < off + tot → a'.ref ip (pos (o / BSIZE)) ∈ a'.txn

section written

variable {full : Prop} {ip off tot : Nat} {src : Nat → Byte} {a a' a'' : Store}

theorem Written.refl (r : Ready a) (h : FileInv ip a) : Written ip off src 0 a a := by
  refine ⟨Extends.refl r h, ?_, ?_⟩
  · intro o ho
    rw [if_neg (by omega)]
    exact ⟨ho.resolve_right (by omega), rfl⟩
  · intro o h1 h2
    omega

theorem Grown.byteAt (h : Grown ip a a') (h0 : a.ref ip (pos (o / BSIZE)) ≠ 0) :
    Fs.byteAt a'.blk (a'.copy ip) o = Fs.byteAt a.blk (a.copy ip) o := by
  have href := h.ref _ h0
  have hblk := h.block _ h0 pos_ne
  unfold Fs.byteAt
  unfold Store.ref at href hblk
  rw [href, hblk]

theorem Written.grow (h : Written ip off src tot a a') (h' : Grown ip a' a'') :
    Written ip off src tot a a'' := by
  refine ⟨h.toExtends.trans h'.toExtends, ?_, ?_⟩
  · intro o ho
    obtain ⟨h0, hbyte⟩ := h.byte o ho
    rw [h'.ref _ h0, h'.byteAt h0]
    exact ⟨h0, hbyte⟩
  · intro o h1 h2
    have h0 := (h.byte o (Or.inr ⟨h1, h2⟩)).1
    rw [h'.ref _ h0]
    exact h'.txn _ (h.logged o h1 h2)

/-- One more piece, within a block. -/
theorem Written.step (h : Written ip off src tot a a')
    (h0 : a'.ref ip (pos ((off + tot) / BSIZE)) ≠ 0) (hm : (off + tot) % BSIZE + m ≤ BSIZE) :
    Written ip off src (tot + m) a (a'.write (a'.ref ip (pos ((off + tot) / BSIZE)))
      ((a'.blk (a'.ref ip (pos ((off + tot) / BSIZE)))).store ((off + tot) % BSIZE) m
        fun j => src (tot + j))) := by
  generalize hv : (a'.blk (a'.ref ip (pos ((off + tot) / BSIZE)))).store ((off + tot) % BSIZE) m
    (fun j => src (tot + j)) = v
  have href := ref_writeBlock h.inv pos_ne h0 v
  have hnew : ∀ o, (off + tot ≤ o ∧ o < off + tot + m ↔
      o / BSIZE = (off + tot) / BSIZE ∧ (off + tot) % BSIZE ≤ o % BSIZE ∧
        o % BSIZE < (off + tot) % BSIZE + m) := by
    intro o
    simp only [BSIZE] at *
    omega
  refine ⟨h.toExtends.trans (Extends.writeBlock h.ready h.inv pos_ne h0 v), ?_, ?_⟩
  · intro o ho
    rw [href]
    have hold : a'.ref ip (pos (o / BSIZE)) ≠ 0 := by
      by_cases hin : off + tot ≤ o ∧ o < off + tot + m
      · rw [((hnew o).mp hin).1]
        exact h0
      · refine (h.byte o ?_).1
        exact ho.imp id fun hr => by omega
    refine ⟨hold, ?_⟩
    show Fs.byteAt _ (a'.copy ip) o = _
    rw [byteAt_writeBlock h.inv pos_ne h0]
    have hmod : o % BSIZE < BSIZE := Nat.mod_lt _ (by decide)
    by_cases hin : off + tot ≤ o ∧ o < off + tot + m
    · obtain ⟨hdiv, hlo, hhi⟩ := (hnew o).mp hin
      have hidx : tot + (o % BSIZE - (off + tot) % BSIZE) = o - off := by
        simp only [BSIZE] at *
        omega
      rw [if_pos (by rw [hdiv]), if_pos (by omega), ← hv, Bytes.byte_store _ _ _ _ hmod,
        if_pos ⟨hlo, hhi⟩, hidx]
    · have hbyte := (h.byte o (ho.imp id fun hr => by omega)).2
      have hif : (off ≤ o ∧ o < off + (tot + m)) ↔ (off ≤ o ∧ o < off + tot) := by omega
      simp only [hif]
      rw [← hbyte]
      split
      · rename_i hpo
        have hdiv := pos_inj hpo
        rw [← hv, Bytes.byte_store _ _ _ _ hmod, if_neg fun hr => hin ((hnew o).mpr ⟨hdiv, hr⟩)]
        unfold Fs.byteAt
        rw [hdiv]
        rfl
      · rfl
  · intro o h1 h2
    rw [href]
    by_cases hin : off + tot ≤ o ∧ o < off + tot + m
    · rw [((hnew o).mp hin).1]
      exact mem_absorb.mpr (Or.inr rfl)
    · exact mem_absorb.mpr (Or.inl (h.logged o h1 (by omega)))

end written

/-- How many blocks hold the `n` bytes from `off` on. -/
def pieces (off n : Nat) : Nat := if n = 0 then 0 else (off % BSIZE + n + (BSIZE - 1)) / BSIZE

section loop

variable {full : Prop} {ip off n L : Nat} {src : Src} {a : Store} {Q : Nat × Nat → Store → Prop}

end loop

/-! ## `writei` -/

/-- The end of `writei`: `if(off > ip->size) ip->size = off; iupdate(ip)`. -/
def Store.finish (a : Store) (ip off : Nat) : Store :=
  (a.setCopy ip fun x => if off > x.size then { x with size := off } else x).sync ip

/-- `writei` returned `r` and the bytes before are in the file. -/
structure Wrote (ip off n : Nat) (src : Nat → Byte) (r : Nat) (a a' : Store) : Prop where
  le : r ≤ n
  ready : Ready a'
  inv : FileInv ip a'
  whole : Whole a'.blk (a'.copy ip)
  held : a'.held = a.held
  len : a'.txn.length ≤ a.load ip + pieces off n + 1
  mem : ∃ addrs, a'.mem = (a.setCopy ip fun x =>
    { x with size := max x.size (off + r), addrs := addrs }).mem
  synced : diskNode a'.mem.sb a'.blk (a'.inum ip) = a'.copy ip
  keeps : Keeps a.mem.sb (a.nodes ip) (a.inum ip) a.blk a'.blk
  ref : ∀ p, a.ref ip p ≠ 0 → a'.ref ip p = a.ref ip p
  byte : ∀ o, o < max (a.copy ip).size (off + r) → byteAt a'.blk (a'.copy ip) o =
    if off ≤ o ∧ o < off + r then src (o - off) else byteAt a.blk (a.copy ip) o
  full : r < n → a'.ref ip (pos ((off + r) / BSIZE)) = 0 ∧
    ∀ b, b < a.mem.sb.size → used a.mem.sb a'.blk b = true
  logged : ∀ o, off ≤ o → o < off + r → a'.ref ip (pos (o / BSIZE)) ∈ a'.txn

section writei

variable {full : Prop} {ip off n r : Nat} {src : Nat → Byte} {a a' : Store}

/-- `if(off > ip->size) ip->size = off`. -/
theorem setSize_eq (x : Dinode) : (if off > x.size then { x with size := off } else x) =
    { x with size := max x.size off } := by
  split
  · rw [Nat.max_eq_right (by omega)]
  · rw [Nat.max_eq_left (by omega)]

theorem Written.finish (w : Written ip off src r a a') (hw : Whole a.blk (a.copy ip))
    (hoff : off ≤ (a.copy ip).size) (hmax : off + r ≤ MAXFILE * BSIZE) (hr : r ≤ n)
    (hload : a'.load ip ≤ a.load ip + pieces off n)
    (hfull : r < n → a'.ref ip (pos ((off + r) / BSIZE)) = 0 ∧
      ∀ b, b < a.mem.sb.size → used a.mem.sb a'.blk b = true) :
    Wrote ip off n src r a (a'.finish ip (off + r)) := by
  have g := w.ready.geo
  obtain ⟨addrs, hmem⟩ := w.mem
  obtain ⟨addrs', hcopy⟩ := w.copy
  -- the copy with its new size
  generalize hf : (fun x : Dinode => if off + r > x.size then { x with size := off + r } else x) = f
  have hfx : ∀ x, f x = { x with size := max x.size (off + r) } := by
    intro x
    rw [← hf]
    exact setSize_eq x
  have hfaddrs : ∀ x, (f x).addrs = x.addrs := by
    intro x
    rw [hfx]
  have hsize : (f (a'.copy ip)).size = max (a.copy ip).size (off + r) := by
    rw [hfx, hcopy]
  have hsmall : max (a.copy ip).size (off + r) ≤ MAXFILE * BSIZE := by
    have := hw.size
    omega
  have hinv : FileInv ip (a'.setCopy ip f) := by
    refine w.inv.setCopy g hfaddrs ?_ ?_
    · rw [hfx]
      exact w.inv.type
    · rw [hsize]
      exact Nat.lt_of_le_of_lt hsmall (by decide)
  have hfin : a'.finish ip (off + r) = (a'.setCopy ip f).sync ip := by
    rw [← hf]
    rfl
  have hready : Ready (a'.setCopy ip f) := w.ready.setCopy f
  have hinum : (a'.setCopy ip f).inum ip = a'.inum ip := a'.setCopy_inum ip f
  have hcopy' : (a'.setCopy ip f).copy ip = f (a'.copy ip) := a'.setCopy_copy ip f
  have href : ∀ p, ((a'.setCopy ip f).sync ip).ref ip p = a'.ref ip p := by
    intro p
    rw [ref_sync hready.geo hinv, ref_setCopy hfaddrs]
  have hblk : ∀ c, datastart a'.mem.sb ≤ c → ((a'.setCopy ip f).sync ip).blk c = a'.blk c := by
    intro c hc
    have horder := g.order
    exact sync_blk hready.geo hinv.lt (Nat.le_trans (Nat.le_of_lt horder.2) hc)
  have hbyte : ∀ o, a'.ref ip (pos (o / BSIZE)) ≠ 0 →
      byteAt ((a'.setCopy ip f).sync ip).blk (((a'.setCopy ip f).sync ip).copy ip) o =
        byteAt a'.blk (a'.copy ip) o := by
    intro o h0
    have hr := href (pos (o / BSIZE))
    unfold Store.ref at hr
    unfold byteAt
    rw [hr]
    exact congrArg (fun d => Bytes.byte d _) (hblk _ (w.inv.range h0).1)
  have hused : ∀ c, c < a.mem.sb.size →
      used a.mem.sb ((a'.setCopy ip f).sync ip).blk c = used a.mem.sb a'.blk c := by
    intro c hc
    rw [← w.sb] at hc ⊢
    exact used_sync hready.geo hinv.lt hc
  -- every byte below the new size was there or has been written
  have hcover : ∀ o, o < max (a.copy ip).size (off + r) →
      a.ref ip (pos (o / BSIZE)) ≠ 0 ∨ off ≤ o ∧ o < off + r := by
    intro o ho
    rcases Nat.lt_or_ge o (a.copy ip).size with hlt | hge
    · exact Or.inl (hw.block hlt).2
    · exact Or.inr (by omega)
  rw [hfin]
  refine ⟨hr, hready.write, hinv.sync hready.geo, ?_, w.held, ?_, ?_, ?_, ?_, ?_, ?_, ?_, ?_⟩
  · have hsz : (((a'.setCopy ip f).sync ip).copy ip).size = max (a.copy ip).size (off + r) := by
      rw [← hsize, ← hcopy']
      rfl
    refine ⟨by rw [hsz]; exact hsmall, ?_⟩
    intro bn hbn
    rw [hsz] at hbn
    have h0 := (w.byte (bn * BSIZE) (hcover _ hbn)).1
    rw [Nat.mul_div_cancel _ (by decide)] at h0
    rw [← href] at h0
    exact h0
  · have hcard : (a'.setCopy ip f).logs.card ≤ a'.load ip := card_le_loadOf
    exact (length_sync_le hready).trans (by omega)
  · refine ⟨addrs, ?_⟩
    refine (Store.setCopy_setCopy_mem hmem).trans (Store.setCopy_congr ?_)
    rw [hfx]
  · have hd := diskNode_sync hinv.fits
    exact hd
  · have hk := Keeps.sync hready.geo hinv
    rw [hinum] at hk
    have hk' : Keeps a.mem.sb (a'.nodes ip) (a.inum ip) a'.blk ((a'.setCopy ip f).sync ip).blk := by
      rw [← w.sb, ← w.inum]
      refine Keeps.refl.trans hk ?_
      intro i _ hne
      rw [a'.nodes_disk hne, (a'.setCopy ip f).nodes_disk (by rw [hinum]; exact hne)]
      rfl
    exact w.keeps.trans hk' fun i hi hne => w.nodes_ne hi hne
  · intro p h0
    rw [href]
    exact w.ref p h0
  · intro o ho
    obtain ⟨h0, hb⟩ := w.byte o (hcover o ho)
    rw [hbyte o h0]
    exact hb
  · intro hlt
    obtain ⟨h0, hall⟩ := hfull hlt
    refine ⟨by rw [href]; exact h0, ?_⟩
    intro b hb
    rw [hused b hb]
    exact hall b hb
  · intro o h1 h2
    rw [href]
    exact mem_absorb.mpr (Or.inl (w.logged o h1 h2))

end writei

end Xv6.Fs
