import Ucore.Mm.LoadIcode
import Ucore.Mm.Spaces
import Mathlib.Tactic.Common

/-!
# The bytes of an address space

* `VmState.byteAt` is the byte at an address. `Layout.Writes` says which addresses a program on an address space writes to;
  the other bytes that are there stay.
* `Wrote` is what `writeBytes` does to a page, and `Layout.Space.wrote` what that means for the addresses, as every page is
  at one address only.
* `loadIcodeRead_post` and `clearBytes_post` are the functions of `load_icode` that write.
-/

namespace Ucore.Vm

open Ucore.Lib

variable {s s₁ s' : VmState} {m d la a off page : ℕ} {x y : Slot} {l : Layout} {v : Vma} {W W' : ℕ → Prop} {bytes : List UInt8}

/-- The byte at an address. -/
def VmState.byteAt (s : VmState) (d a : ℕ) : Option UInt8 := (s.pte (slotOf d a)).page.map fun p => s.byte p (a % pageSize)

theorem byteAt_of_present (h : (s.pte (slotOf d a)).present = true) :
    s.byteAt d a = some (s.byte (s.pte (slotOf d a)).ppn (a % pageSize)) := by
  unfold VmState.byteAt
  rw [Pte.page_of_present h]
  rfl

theorem isSome_byteAt : (s.byteAt d a).isSome = (s.pte (slotOf d a)).present := by
  unfold VmState.byteAt Pte.page
  cases (s.pte (slotOf d a)).present <;> rfl

/-- A program on the address space `m` writes to the addresses of `W` at most. -/
structure Layout.Writes (l : Layout) (m : ℕ) (W : ℕ → Prop) (s s' : VmState) : Prop extends l.On m s s' where
  stays : ∀ x ∈ l.slots, (s.pte x).present = true → s'.pte x = s.pte x
  bytes : ∀ a < ptSize * l.top, (s.pte (slotOf (s.mm m).pgdir a)).present = true → ¬ W a →
    s'.byteAt (s.mm m).pgdir a = s.byteAt (s.mm m).pgdir a

theorem Layout.Writes.mono (h : l.Writes m W s s') (hW : ∀ a, W a → W' a) : l.Writes m W' s s' :=
  ⟨h.toOn, h.stays, fun a ha hpresent hnot => h.bytes a ha hpresent fun hw => hnot (hW a hw)⟩

/-- Nothing is written where nothing was before. -/
theorem Layout.Writes.of_absent (h : l.Writes m W s s')
    (habsent : ∀ a < ptSize * l.top, W a → (s.pte (slotOf (s.mm m).pgdir a)).present = false) :
    l.Writes m (fun _ => False) s s' := by
  refine ⟨h.toOn, h.stays, fun a ha hpresent _ => h.bytes a ha hpresent fun hw => ?_⟩
  rw [habsent a ha hw] at hpresent
  cases hpresent

theorem Layout.Writes.trans (hd : (s.mm m).pgdir ∈ l.dirs) (h : l.Writes m W s s₁) (h' : l.Writes m W s₁ s') :
    l.Writes m W s s' := by
  have hpgdir := h.pgdir
  refine ⟨h.toOn.trans h'.toOn, fun x hx hpresent => ?_, fun a ha hpresent hnot => ?_⟩
  · have hsame := h.stays x hx hpresent
    rw [h'.stays x hx (by rwa [hsame]), hsame]
  · have hx : slotOf (s.mm m).pgdir a ∈ l.slots := slotOf_mem_slots hd (pdx_lt_top ha (Nat.le_refl _))
    have hsame := h.stays _ hx hpresent
    have hlater := h'.bytes a ha (by rw [hpgdir, hsame, hpresent]) hnot
    rw [hpgdir] at hlater
    rw [hlater, h.bytes a ha hpresent hnot]

/-- New pages do not change bytes that are there. -/
theorem Layout.Grows.writes (h : l.Grows m s s') (hspace : l.Space s m) : l.Writes m W s s' := by
  refine ⟨h.toOn, h.stays, fun a ha hpresent _ => ?_⟩
  have hx : slotOf (s.mm m).pgdir a ∈ l.slots := slotOf_mem_slots hspace.dir (pdx_lt_top ha (Nat.le_refl _))
  have hsame := h.stays _ hx hpresent
  rw [byteAt_of_present hpresent, byteAt_of_present (by rwa [hsame]), hsame,
    h.byte _ (hspace.ok.named hx (Pte.page_of_present hpresent)).2.2]

/-! ### Writing to a page -/

/-- Bytes have been written to a page, and blocks have come and gone. -/
structure Wrote (page off : ℕ) (bytes : List UInt8) (s s' : VmState) : Prop where
  free : s'.free = s.free
  ref : s'.pageRef = s.pageRef
  entry : s'.entry = s.entry
  byte : s'.byte = (s.writeBytes page off bytes).byte
  mm : s'.mm = s.mm
  boot : s'.bootPgdir = s.bootPgdir
  fresh : s.freshBlock ≤ s'.freshBlock

theorem writeBytes_nil (s : VmState) (page off : ℕ) : s.writeBytes page off [] = s := by
  unfold VmState.writeBytes
  have hnone : (fun i => if off ≤ i ∧ i < off + ([] : List UInt8).length then ([] : List UInt8).getD (i - off) 0 else s.byte page i) =
      s.byte page := by
    funext i
    refine if_neg fun hand => ?_
    rw [List.length_nil, Nat.add_zero] at hand
    exact Nat.not_lt.mpr hand.1 hand.2
  rw [hnone, Function.update_eq_self]

theorem byte_writeBytes_self (i : ℕ) : (s.writeBytes page off bytes).byte page i =
    if off ≤ i ∧ i < off + bytes.length then bytes.getD (i - off) 0 else s.byte page i := by
  show Function.update s.byte page _ page i = _
  rw [Function.update_self]

theorem byte_writeBytes_of_ne {p : ℕ} (h : p ≠ page) : (s.writeBytes page off bytes).byte p = s.byte p :=
  Function.update_of_ne h _ _

theorem Wrote.on (h : Wrote page off bytes s s') (l : Layout) (m : ℕ) : l.On m s s' := by
  obtain ⟨hfree, href, hentry, -, hmm, hboot, hfresh⟩ := h
  have hpte : ∀ x, s'.pte x = s.pte x := fun x => pte_congr (by rw [hentry]) fun _ => by rw [hentry]
  exact ⟨⟨fun x _ _ => hpte x, fun d _ _ i => by rw [hentry], fun p _ k _ => by rw [hentry], fun p hp => hfree ▸ hp,
    fun p _ => by rw [href], fun m' _ => by rw [hmm], by rw [hmm], hboot, hfresh⟩, by rw [hmm]⟩

/-- **A write to the page of an address** changes the bytes at the addresses of that page only. -/
theorem Layout.Space.wrote (h : l.Space s m) (hx : slotOf (s.mm m).pgdir la ∈ l.slots) (halign : la % pageSize = 0)
    (hpage : (s.pte (slotOf (s.mm m).pgdir la)).page = some page) (hfit : off + bytes.length ≤ pageSize)
    (hlt : la + pageSize ≤ ptSize * l.top) (htop : ptSize * l.top ≤ 2 ^ 32) (hwrote : Wrote page off bytes s s') :
    l.Space s' m ∧ l.Writes m (fun a => la + off ≤ a ∧ a < la + off + bytes.length) s s' ∧
      ∀ i < bytes.length, s'.byteAt (s.mm m).pgdir (la + off + i) = some (bytes.getD i 0) := by
  have hentry := hwrote.entry
  have hpte : ∀ x, s'.pte x = s.pte x := fun x => pte_congr (by rw [hentry]) fun _ => by rw [hentry]
  obtain ⟨hpresent, hppn⟩ := Pte.page_eq_some.mp hpage
  have hself : ∀ a, la ≤ a → a < la + pageSize → slotOf (s.mm m).pgdir a = slotOf (s.mm m).pgdir la := by
    intro a hle halt
    have hfloor : a / pageSize * pageSize = la := by
      unfold pageSize at *
      omega
    rw [← slotOf_floor, hfloor]
  refine ⟨h.congr hwrote.free hwrote.ref hentry (by rw [hwrote.mm]),
    ⟨hwrote.on l m, fun x _ _ => hpte x, fun a ha hpa hnot => ?_⟩, fun i hi => ?_⟩
  · have hxa : slotOf (s.mm m).pgdir a ∈ l.slots := slotOf_mem_slots h.dir (pdx_lt_top ha (Nat.le_refl _))
    rw [byteAt_of_present hpa, byteAt_of_present (by rwa [hpte]), hpte, hwrote.byte]
    by_cases hsame : (s.pte (slotOf (s.mm m).pgdir a)).ppn = page
    · have hone : l.users s page = 1 := by
        obtain ⟨hk, ht, -⟩ := h.ok.named hx hpage
        have href := h.refs _ hx rfl hpresent
        rw [hppn, (h.ok.data hk ht).1] at href
        exact Int.ofNat_inj.mp href
      have heq : slotOf (s.mm m).pgdir a = slotOf (s.mm m).pgdir la :=
        Layout.eq_of_users_eq_one h.ok.nodup hx hxa hpage (by rw [Pte.page_of_present hpa, hsame]) hone
      have haddr : pageSize * (a / pageSize) = la := by
        rw [← addr_slotOf_floor (d := (s.mm m).pgdir) (Nat.lt_of_lt_of_le ha htop), heq, addr_slotOf halign]
        exact Nat.lt_of_lt_of_le (Nat.lt_of_lt_of_le (Nat.lt_add_of_pos_right (Nat.succ_pos _)) hlt) htop
      rw [hsame, byte_writeBytes_self, if_neg]
      intro hand
      apply hnot
      unfold pageSize at *
      omega
    · rw [byte_writeBytes_of_ne hsame]
  · have hslot : slotOf (s.mm m).pgdir (la + off + i) = slotOf (s.mm m).pgdir la := by
      apply hself
      · omega
      · omega
    have hmod : (la + off + i) % pageSize = off + i := by
      unfold pageSize at *
      omega
    rw [byteAt_of_present (by rw [hslot, hpte, hpresent]), hslot, hpte, hppn, hwrote.byte, byte_writeBytes_self, hmod,
      if_pos ⟨Nat.le_add_right _ _, Nat.add_lt_add_left hi _⟩, Nat.add_sub_cancel_left]

/-! ### `load_icode_read` and `memset` -/

theorem Wrote.nil (s : VmState) (page off : ℕ) : Wrote page off [] s s :=
  ⟨rfl, rfl, rfl, by rw [writeBytes_nil], rfl, rfl, Nat.le_refl _⟩

theorem seek_post (file : ExecFile) (offset : ℕ) : ((file.seek offset).run s).Post (fun _ s' => s' = s) (fun _ s' => s' = s)
    fun _ => False := by
  unfold ExecFile.seek
  rw [Prog.run_ite]
  split_ifs
  · cases file.grows offset with
    | none => exact rfl
    | some e => exact rfl
  · exact rfl

/-- **`load_icode_read`** stores the bytes of the file from `offset` on. -/
theorem loadIcodeRead_post (al : Allocs) (file : ExecFile) {store : List UInt8 → VmState → VmState}
    {f : List UInt8 → List UInt8} (hstore : ∀ bytes s, store bytes s = s.writeBytes page off (f bytes)) (len offset : ℕ) :
    ((loadIcodeRead al file store len offset).run s).Post
      (fun got s' => offset < sfsMaxFileSize ∧ got = (file.bytes.drop offset).take len ∧ got.length = len ∧
        Wrote page off (f got) s s')
      (fun _ s' => Wrote page off [] s s' ∨ Wrote page off (f ((file.bytes.drop offset).take len)) s s') fun _ => False := by
  unfold loadIcodeRead
  by_cases hmax : sfsMaxFileSize ≤ offset
  · rw [if_pos hmax]
    exact Or.inl (.nil s page off)
  · rw [if_neg hmax]
    refine Outcome.post_bind.mpr ((seek_post file offset).mono ?_ ?_ fun _ hf => hf)
    · rintro _ s₁ rfl
      unfold kmalloc
      rw [Prog.run_bind, Prog.run_bind, Prog.run_get, Outcome.andThen_ok, Prog.run_bind, Prog.run_modify, Outcome.andThen_ok,
        Prog.run_ite]
      split_ifs
      · exact Or.inl ⟨rfl, rfl, rfl, by rw [writeBytes_nil], rfl, rfl, Nat.le_refl _⟩
      · show Outcome.Post _ _ _ (Prog.run (Prog.modify _ >>= _) _)
        rw [Prog.run_bind, Prog.run_modify, Outcome.andThen_ok, hstore, Prog.run_bind]
        show Outcome.Post _ _ _ (Prog.run (if _ then _ else _) _)
        rw [Prog.run_ite]
        split_ifs with hlen
        · exact ⟨Nat.lt_of_not_le hmax, rfl, hlen, ⟨rfl, rfl, rfl, rfl, rfl, rfl, Nat.le_succ _⟩⟩
        · exact Or.inr ⟨rfl, rfl, rfl, rfl, rfl, rfl, Nat.le_succ _⟩
    · rintro _ s₁ rfl
      exact Or.inl (.nil s₁ page off)

/-- A header is read to the stack of the kernel. -/
theorem loadIcodeRead_header (al : Allocs) (file : ExecFile) (len offset : ℕ) :
    ((loadIcodeRead al file (fun _ s => s) len offset).run s).Post
      (fun got s' => got = (file.bytes.drop offset).take len ∧ Wrote 0 0 [] s s') (fun _ s' => Wrote 0 0 [] s s')
      fun _ => False := by
  have hstore : ∀ (bytes : List UInt8) (s : VmState), s = s.writeBytes 0 0 ((fun _ => []) bytes) := fun _ s =>
    (writeBytes_nil s 0 0).symm
  exact (loadIcodeRead_post al file hstore len offset).mono (fun _ _ h => ⟨h.2.1, h.2.2.2⟩) (fun _ _ h => h.elim id id)
    fun _ h => h

theorem clearBytes_post {size : ℕ} : ((clearBytes page off size).run s).Post
    (fun _ s' => off + size ≤ pageSize ∧ Wrote page off (List.replicate size 0) s s') (fun _ _ => False)
    fun p => p = .kernelFault ∧ pageSize < off + size := by
  unfold clearBytes
  rw [Prog.run_ite]
  split_ifs with hfit
  · exact ⟨hfit, rfl, rfl, rfl, rfl, rfl, rfl, Nat.le_refl _⟩
  · exact ⟨rfl, Nat.lt_of_not_le hfit⟩

end Ucore.Vm
