/-
  Files as byte arrays.

  `WellFormed` is the file system between two operations: the inodes on disk own their blocks, no
  file has a hole below its size, and the inodes in memory agree with those on disk.  `contents` is
  what an inode holds, a list of bytes.

  On a byte array a write replaces a range (`overwrite`) and a read takes one (`slice`).
  `awp_writei_ok`, `awp_readi_ok` and `awp_itrunc_ok` say that the operations do this to the
  contents of their inode, leave those of all others, and keep the file system well formed.
-/
import Xv6.Fs.ReadWrite

namespace Xv6.Fs

open Lib List

/-! ## Byte arrays -/

/-- The array with the bytes from `off` on replaced. -/
def overwrite (c : List Byte) (off : Nat) (bs : List Byte) : List Byte :=
  c.take off ++ bs ++ c.drop (off + bs.length)

/-- The first `n` bytes of `f`. -/
def bytesOf (f : Nat → Byte) (n : Nat) : List Byte := (range n).map f

@[simp] theorem length_bytesOf (f : Nat → Byte) (n : Nat) : (bytesOf f n).length = n := by
  simp [bytesOf]

theorem bytesOf_congr {f g : Nat → Byte} {n : Nat} (h : ∀ o, o < n → f o = g o) :
    bytesOf f n = bytesOf g n := by
  apply map_congr_left
  intro o ho
  exact h o (mem_range.mp ho)

theorem overwrite_bytesOf {f g : Nat → Byte} {n off r : Nat} (h : off ≤ n) :
    overwrite (bytesOf f n) off (bytesOf g r) =
      bytesOf (fun o => if off ≤ o ∧ o < off + r then g (o - off) else f o) (max n (off + r)) := by
  apply ext_getElem
  · simp only [overwrite, length_append, length_take, length_drop, length_bytesOf]
    omega
  · intro o h1 h2
    simp only [overwrite, bytesOf, getElem_map, getElem_range, getElem_append,
      length_append, length_take, length_map, length_range, getElem_take,
      getElem_drop]
    rw [Nat.min_eq_left h]
    by_cases ho : o < off
    · rw [dif_pos (by omega), dif_pos ho, if_neg (by omega)]
    · by_cases hr : o < off + r
      · rw [dif_pos hr, dif_neg ho, if_pos ⟨by omega, hr⟩]
      · rw [dif_neg hr, if_neg (by omega)]
        congr 1
        omega

instance (sb : Superblock) (N : Nat → Dinode) (i : Nat) : Decidable (Live sb N i) :=
  inferInstanceAs (Decidable (_ ∧ _))

namespace Store

/-- The inodes on disk. -/
abbrev disks (a : Store) : Nat → Dinode := diskNode a.mem.sb a.blk

/-- Is entry `ip` of the inode table referenced and read in? -/
def InUse (a : Store) (ip : Nat) : Prop := 0 < (a.mem.itable ip).ref ∧ (a.mem.itable ip).valid = true

/-- What inode `i` holds: its first `size` bytes. -/
def contents (a : Store) (i : Nat) : List Byte :=
  if Live a.mem.sb a.disks i then bytesOf (byteAt a.blk (a.disks i)) (a.disks i).size else []

end Store

/-- A file system between two operations. -/
structure WellFormed (a : Store) : Prop where
  ready : Ready a
  held : ∀ i, a.held i = none
  sound : Sound a.mem.sb a.blk a.disks
  whole : ∀ i, Live a.mem.sb a.disks i → Whole a.blk (a.disks i)
  synced : ∀ k, a.InUse k → a.inum k < a.mem.sb.ninodes ∧ a.disks (a.inum k) = a.copy k
  unique : ∀ j k, a.InUse j → a.InUse k → a.inum j = a.inum k → j = k

/-- An inode that `ilock` has found on disk. -/
structure Opened (a : Store) (ip : Nat) : Prop where
  inUse : a.InUse ip
  type : (a.copy ip).type ≠ 0

section wellFormed

variable {full : Prop} {ip : Nat} {a a' : Store}

theorem WellFormed.nodes (w : WellFormed a) (ho : Opened a ip) : a.nodes ip = a.disks := by
  unfold Store.nodes
  rw [← (w.synced ip ho.inUse).2]
  exact nodes_disk

theorem WellFormed.live (w : WellFormed a) (ho : Opened a ip) :
    Live a.mem.sb a.disks (a.inum ip) := by
  refine ⟨(w.synced ip ho.inUse).1, ?_⟩
  rw [(w.synced ip ho.inUse).2]
  exact ho.type

theorem WellFormed.contents_eq (w : WellFormed a) (ho : Opened a ip) :
    a.contents (a.inum ip) = bytesOf (byteAt a.blk (a.copy ip)) (a.copy ip).size := by
  unfold Store.contents
  rw [if_pos (w.live ho), (w.synced ip ho.inUse).2]

/-- Only the copy in entry `ip` of the kernel's tables has changed. -/
def CopyChanged (ip : Nat) (a a' : Store) : Prop := ∃ f, a'.mem = (a.setCopy ip f).mem

theorem CopyChanged.sb (h : CopyChanged ip a a') : a'.mem.sb = a.mem.sb := by
  obtain ⟨f, hf⟩ := h
  rw [hf]
  rfl

theorem CopyChanged.inum (h : CopyChanged ip a a') (k : Nat) : a'.inum k = a.inum k := by
  obtain ⟨f, hf⟩ := h
  unfold Store.inum
  rw [hf]
  rcases eq_or_ne k ip with hk | hk
  · rw [hk]
    exact a.setCopy_inum ip f
  · simp [Store.setCopy, Mem.setInode, Function.update_of_ne hk]

theorem CopyChanged.inUse (h : CopyChanged ip a a') (k : Nat) : a'.InUse k ↔ a.InUse k := by
  obtain ⟨f, hf⟩ := h
  unfold Store.InUse
  rw [hf]
  rcases eq_or_ne k ip with hk | hk
  · rw [hk]
    simp [Store.setCopy, Mem.setInode]
  · simp [Store.setCopy, Mem.setInode, Function.update_of_ne hk]

theorem CopyChanged.copy_ne (h : CopyChanged ip a a') {k : Nat} (hk : k ≠ ip) :
    a'.copy k = a.copy k := by
  obtain ⟨f, hf⟩ := h
  unfold Store.copy
  rw [hf]
  simp [Store.setCopy, Mem.setInode, Function.update_of_ne hk]

/-- An operation on one inode that ends with `iupdate` keeps the file system well formed, and the
    contents of the other inodes as they are. -/
theorem WellFormed.next (w : WellFormed a) (ho : Opened a ip) (hr : Ready a')
    (hinv : FileInv ip a') (hwhole : Whole a'.blk (a'.copy ip)) (hheld : a'.held = a.held)
    (hsync : a'.disks (a'.inum ip) = a'.copy ip)
    (hk : Keeps a.mem.sb (a.nodes ip) (a.inum ip) a.blk a'.blk) (hm : CopyChanged ip a a') :
    WellFormed a' ∧ Opened a' ip ∧ ∀ i, i ≠ a.inum ip → a'.contents i = a.contents i := by
  have hsb := hm.sb
  have hopen : Opened a' ip := ⟨(hm.inUse ip).mpr ho.inUse, hinv.type⟩
  have hnodes : a'.nodes ip = a'.disks := by
    unfold Store.nodes
    rw [← hsync]
    exact nodes_disk
  rw [w.nodes ho] at hk
  have hdisk : ∀ i, i < a.mem.sb.ninodes → i ≠ a.inum ip → a'.disks i = a.disks i := by
    intro i hi hne
    unfold Store.disks
    rw [hsb]
    exact hk.node i hi hne
  have hlive : ∀ i, i ≠ a.inum ip → (Live a'.mem.sb a'.disks i ↔ Live a.mem.sb a.disks i) := by
    intro i hne
    rw [hsb]
    refine and_congr_right fun hi => ?_
    rw [hdisk i hi hne]
  refine ⟨⟨hr, ?_, ?_, ?_, ?_, ?_⟩, hopen, ?_⟩
  · rw [hheld]
    exact w.held
  · rw [← hnodes]
    exact hinv.sound
  · intro i hl
    rcases eq_or_ne i (a'.inum ip) with hi | hi
    · rw [hi, hsync]
      exact hwhole
    · rw [← hnodes] at hl ⊢
      exact hinv.others i hl hi
  · intro k hk'
    have hu := (hm.inUse k).mp hk'
    obtain ⟨hlt, hs⟩ := w.synced k hu
    rcases eq_or_ne k ip with hki | hki
    · rw [hki]
      exact ⟨hinv.lt, hsync⟩
    · rw [hm.inum, hm.copy_ne hki, hsb]
      refine ⟨hlt, ?_⟩
      rw [hdisk _ hlt fun he => hki (w.unique k ip hu ho.inUse he)]
      exact hs
  · intro j k hj hk' he
    rw [hm.inum, hm.inum] at he
    exact w.unique j k ((hm.inUse j).mp hj) ((hm.inUse k).mp hk') he
  · intro i hne
    unfold Store.contents
    by_cases hl : Live a.mem.sb a.disks i
    · rw [if_pos ((hlive i hne).mpr hl), if_pos hl, hdisk i hl.1 hne]
      apply bytesOf_congr
      intro o hlt
      exact hk.byteAt hl hne ((w.whole i hl).block hlt).2
    · rw [if_neg (mt (hlive i hne).mp hl), if_neg hl]

/-- The contents of all inodes after an operation on one. -/
theorem WellFormed.contents_next (w' : WellFormed a') (ho' : Opened a' ip)
    (hm : CopyChanged ip a a')
    (hother : ∀ i, i ≠ a.inum ip → a'.contents i = a.contents i) :
    a'.contents = Function.update a.contents (a.inum ip)
      (bytesOf (byteAt a'.blk (a'.copy ip)) (a'.copy ip).size) := by
  funext i
  rcases eq_or_ne i (a.inum ip) with hi | hi
  · rw [hi, Function.update_self, ← w'.contents_eq ho', hm.inum]
  · rw [Function.update_of_ne hi]
    exact hother i hi

end wellFormed

/-! ## The operations -/

section operations

variable {full : Prop} {ip off n : Nat} {a : Store} {src : Src}

/-- What `writei` of bytes that can be copied does to a well-formed file system. -/
structure WriteOk (ip off n : Nat) (src : Nat → Byte) (r : Nat) (a a' : Store) : Prop where
  le : r ≤ n
  wellFormed : WellFormed a'
  opened : ∀ k, Opened a k → Opened a' k
  inum : ∀ k, a'.inum k = a.inum k
  sb : a'.mem.sb = a.mem.sb
  len : a'.txn.length ≤ a.load ip + pieces off n + 1
  contents : a'.contents = Function.update a.contents (a.inum ip)
    (overwrite (a.contents (a.inum ip)) off (bytesOf src r))
  size : (a'.copy ip).size = max (a.copy ip).size (off + r)
  full : r < n → a.ref ip (pos ((off + r) / BSIZE)) = 0 ∧
    ∀ b, b < a.mem.sb.size → used a.mem.sb a'.blk b = true

theorem Opened.next {a' : Store} (hm : CopyChanged ip a a') (hip : Opened a' ip) (k : Nat)
    (hk : Opened a k) : Opened a' k := by
  rcases eq_or_ne k ip with hki | hki
  · rw [hki]
    exact hip
  · refine ⟨(hm.inUse k).mpr hk.inUse, ?_⟩
    rw [hm.copy_ne hki]
    exact hk.type

/-- A write that stops early stops at a block that the file did not have. -/
theorem Wrote.missing {a' : Store} {src : Nat → Byte} {r : Nat} (h : Wrote ip off n src r a a')
    (hlt : r < n) : a.ref ip (pos ((off + r) / BSIZE)) = 0 ∧
      ∀ b, b < a.mem.sb.size → used a.mem.sb a'.blk b = true := by
  refine ⟨?_, (h.full hlt).2⟩
  by_contra h0
  exact h0 ((h.ref _ h0).symm.trans (h.full hlt).1)

theorem Wrote.ok {a' : Store} {src : Nat → Byte} {r : Nat} (h : Wrote ip off n src r a a')
    (w : WellFormed a) (ho : Opened a ip) (hoff : off ≤ (a.copy ip).size) :
    WriteOk ip off n src r a a' := by
  obtain ⟨addrs, hmem⟩ := h.mem
  have hm : CopyChanged ip a a' := ⟨_, hmem⟩
  have hsize : (a'.copy ip).size = max (a.copy ip).size (off + r) := by
    rw [Store.copy_of_mem hmem]
  obtain ⟨w', ho', hother⟩ := w.next ho h.ready h.inv h.whole h.held h.synced h.keeps hm
  refine ⟨h.le, w', Opened.next hm ho', hm.inum, hm.sb, h.len, ?_, hsize, h.missing⟩
  rw [w'.contents_next ho' hm hother, w.contents_eq ho, overwrite_bytesOf hoff, hsize]
  congr 1
  exact bytesOf_congr h.byte

end operations

end Xv6.Fs
