import Ucore.Mm.SpaceBytes
import Mathlib.Data.List.TakeWhile
import Mathlib.Tactic.Common

/-!
# Loading the segments

The three parts of the loop body of `load_icode`, for a segment that does not go beyond the end of the addresses.

* `Layout.Loading` is the invariant: the segment is in memory up to an address, with the bytes that it should have, and the
  pages up to another address are there.
* `fileLoop_post`, `bssFirst_post` and `bssLoop_post` are the parts, and `loadSegment_post` is the whole: the segment is in
  memory, and nothing that was in memory before has changed.
-/

namespace Ucore.Vm

open Ucore.Lib

variable {s₀ s s₁ s' : VmState} {m d la va start stop a off page fuel offset pOffset : ℕ} {x y : Slot} {l : Layout} {v : Vma}
  {bytes got : List UInt8} {content : ℕ → Option UInt8}

/-- The addresses of an area that starts at `va` have their bytes up to `start`, and the pages of the area from `la` on are
not there. -/
structure Layout.Loading (l : Layout) (m : ℕ) (v : Vma) (content : ℕ → Option UInt8) (va start la : ℕ) (s₀ s : VmState) : Prop where
  space : l.Space s m
  writes : l.Writes m v.Has s₀ s
  list : (s.mm m).mmapList = (s₀.mm m).mmapList
  rest : ∀ x ∈ l.slots, x.dir = (s₀.mm m).pgdir → la ≤ x.addr → v.Has x.addr → (s.pte x).present = false
  done : ∀ a, va ≤ a → a < start → ∃ b, s.byteAt (s₀.mm m).pgdir a = some b ∧ content a = some b
  le : start ≤ v.vmEnd

/-- The page directories have entries of their own for all user addresses, and not for the last page of memory. -/
structure Layout.Tops (l : Layout) : Prop where
  user : userTop ≤ ptSize * l.top
  word : l.top ≤ pdxVpt

theorem Layout.Tops.lt_word (h : l.Tops) : ptSize * l.top ≤ 2 ^ 32 := by
  have hword := h.word
  unfold pdxVpt at hword
  unfold ptSize
  omega

namespace Layout.Loading

theorem pgdir (h : l.Loading m v content va start la s₀ s) : (s.mm m).pgdir = (s₀.mm m).pgdir := h.writes.pgdir

/-- The next page of the area. -/
theorem alloc (al : Allocs) (h : l.Loading m v content va start la s₀ s) (htops : l.Tops) (hdir : (s₀.mm m).pgdir ∈ l.dirs)
    (hv : v ∈ (s₀.mm m).mmapList) (hla : v.Has la) (halign : la % pageSize = 0) {perm : BitVec 12}
    (hperm : pteP ||| perm = pteP ||| v.perm) : ((pgdirAllocPage al (s₀.mm m).pgdir la perm).run s).Post
      (fun r s' => (r = none ∧ l.Space s' m ∧ l.On m s₀ s') ∨ ∃ page, r = some page ∧
        l.Loading m v content va start (la + pageSize) s₀ s' ∧ (s'.pte (slotOf (s₀.mm m).pgdir la)).page = some page)
      (fun _ _ => False) fun _ => False := by
  have hpgdir := h.pgdir
  have hrange := h.space.ranges v (by rwa [h.list])
  have hlt : la < userTop := Nat.lt_of_lt_of_le hla.2 hrange.access.2.2
  have hword : la < 2 ^ 32 := Nat.lt_of_lt_of_le (Nat.lt_of_lt_of_le hlt htops.user) htops.lt_word
  have hx : slotOf (s₀.mm m).pgdir la ∈ l.slots := slotOf_mem_slots hdir (pdx_lt_top hlt htops.user)
  have haddr : (slotOf (s₀.mm m).pgdir la).addr = la := addr_slotOf halign hword
  have habsent : (s.pte (slotOf (s₀.mm m).pgdir la)).present = false :=
    h.rest _ hx rfl (Nat.le_of_eq haddr.symm) (by rwa [haddr])
  refine (pgdirAllocPage_post al h.space.ok hx perm).mono ?_ (fun _ _ hf => hf) fun _ hf => hf
  rintro r s' (⟨rfl, hsame⟩ | ⟨page, rfl, hadded⟩)
  · obtain ⟨hspace, hgrows⟩ := h.space.same hsame
    exact Or.inl ⟨rfl, hspace, h.writes.toOn.trans hgrows.toOn⟩
  · have hself : (s'.pte (slotOf (s₀.mm m).pgdir la)).page = some page := by
      rw [hadded.pte _ hx, if_pos rfl, Pte.page_of_present (Pte.present_insert perm)]
    rw [← hpgdir] at hadded habsent
    obtain ⟨hspace, hgrows⟩ := h.space.added (by rwa [h.list]) hla halign hperm habsent hadded
    have hwrites : l.Writes m v.Has s s' := hgrows.writes h.space
    refine Or.inr ⟨page, rfl, ⟨hspace, h.writes.trans hdir hwrites, ?_, fun y hy hyd hle hhas => ?_, fun a hle hlt' => ?_, h.le⟩, hself⟩
    · rw [hadded.frame.only.mm, h.list]
    · rw [hadded.pte y hy, if_neg, h.rest y hy hyd (Nat.le_trans (Nat.le_add_right _ _) hle) hhas]
      rintro rfl
      rw [hpgdir, haddr] at hle
      exact absurd hle (Nat.not_le.mpr (Nat.lt_add_of_pos_right (Nat.succ_pos _)))
    · obtain ⟨b, hb, hcontent⟩ := h.done a hle hlt'
      have hbound : a < ptSize * l.top :=
        Nat.lt_of_lt_of_le (Nat.lt_of_lt_of_le hlt' h.le) (Nat.le_trans hrange.access.2.2 htops.user)
      have hpresent : (s.pte (slotOf (s.mm m).pgdir a)).present = true := by
        rw [hpgdir, ← isSome_byteAt, hb]
        rfl
      have hsame := (hgrows.writes (W := fun _ => False) h.space).bytes a hbound hpresent fun hf => hf
      rw [hpgdir] at hsame
      exact ⟨b, by rw [hsame, hb], hcontent⟩

/-- Bytes are written behind the part that is there, to the last page. -/
theorem write (h : l.Loading m v content va start (la + pageSize) s₀ s) (htops : l.Tops) (hdir : (s₀.mm m).pgdir ∈ l.dirs)
    (hv : v ∈ (s₀.mm m).mmapList) (hla : v.Has la) (halign : la % pageSize = 0)
    (hpage : (s.pte (slotOf (s₀.mm m).pgdir la)).page = some page) (hstart : start = la + off)
    (hfit : off + bytes.length ≤ pageSize) (hend : start + bytes.length ≤ v.vmEnd)
    (hcontent : ∀ i < bytes.length, content (start + i) = some (bytes.getD i 0)) (hwrote : Wrote page off bytes s s') :
    l.Loading m v content va (start + bytes.length) (la + pageSize) s₀ s' := by
  have hpgdir := h.pgdir
  have hrange := h.space.ranges v (by rwa [h.list])
  have hlt : la < userTop := Nat.lt_of_lt_of_le hla.2 hrange.access.2.2
  have hx : slotOf (s.mm m).pgdir la ∈ l.slots := hpgdir ▸ slotOf_mem_slots hdir (pdx_lt_top hlt htops.user)
  have hnext : la + pageSize ≤ ptSize * l.top := by
    have hin : la + pageSize ≤ v.vmEnd := by
      have hstop := hrange.stopAlign
      have hhigh := hla.2
      unfold pageSize at *
      omega
    exact Nat.le_trans hin (Nat.le_trans hrange.access.2.2 htops.user)
  obtain ⟨hspace, hwrites, hnew⟩ := h.space.wrote hx halign (by rwa [hpgdir]) hfit hnext htops.lt_word hwrote
  have hinside : ∀ a, la + off ≤ a ∧ a < la + off + bytes.length → v.Has a := by
    rintro a ⟨hlow, hhigh⟩
    exact ⟨Nat.le_trans hla.1 (Nat.le_trans (Nat.le_add_right _ _) hlow), Nat.lt_of_lt_of_le hhigh (hstart ▸ hend)⟩
  refine ⟨hspace, h.writes.trans hdir (hwrites.mono hinside), by rw [hwrote.mm, h.list], fun y hy hyd hle hhas => ?_,
    fun a hle hlt' => ?_, hend⟩
  · have hentry := hwrote.entry
    have hpte : s'.pte y = s.pte y := pte_congr (by rw [hentry]) fun _ => by rw [hentry]
    rw [hpte, h.rest y hy hyd hle hhas]
  · by_cases hold : a < start
    · obtain ⟨b, hb, hcontent'⟩ := h.done a hle hold
      have hbound : a < ptSize * l.top :=
        Nat.lt_of_lt_of_le (Nat.lt_of_lt_of_le hold h.le) (Nat.le_trans hrange.access.2.2 htops.user)
      have hpresent : (s.pte (slotOf (s.mm m).pgdir a)).present = true := by
        rw [hpgdir, ← isSome_byteAt, hb]
        rfl
      have hsame := hwrites.bytes a hbound hpresent fun hand => absurd hand.1 (Nat.not_le.mpr (hstart ▸ hold))
      rw [hpgdir] at hsame
      exact ⟨b, by rw [hsame, hb], hcontent'⟩
    · obtain ⟨i, rfl⟩ := Nat.exists_eq_add_of_le (Nat.le_of_not_lt hold)
      have hi : i < bytes.length := Nat.lt_of_add_lt_add_left hlt'
      have hbyte := hnew i hi
      rw [hpgdir, ← hstart] at hbyte
      exact ⟨_, hbyte, hcontent i hi⟩

end Layout.Loading

/-! ### The loops -/

/-- Where a loop over the pages of a segment is: it has come to `start`, the next page is for `la`, and `fuel` turns are
left. -/
structure AtPage (va stop start la fuel : ℕ) : Prop where
  align : la % pageSize = 0
  begun : va ≤ start
  le : start ≤ stop
  near : start < stop → la ≤ start ∧ start < la + pageSize
  past : start = stop → stop ≤ la
  bound : la < stop + pageSize
  fuel : stop + pageSize ≤ la + pageSize * fuel

theorem AtPage.fuel_pos (h : AtPage va stop start la fuel) : 0 < fuel := by
  have hfuel := h.fuel
  have hbound := h.bound
  refine Nat.pos_of_ne_zero fun hzero => ?_
  rw [hzero, Nat.mul_zero, Nat.add_zero] at hfuel
  exact absurd hbound (Nat.not_lt.mpr hfuel)

/-- A turn, where nothing goes beyond 32 bits. -/
theorem AtPage.turn (h : AtPage va stop start la (fuel + 1)) (hlt : start < stop) (hword : stop ≤ userTop) :
    sub32 start la = start - la ∧ add32 la pageSize = la + pageSize ∧
      chunkSize (start - la) (la + pageSize) stop = min (la + pageSize) stop - start ∧
      add32 start (min (la + pageSize) stop - start) = min (la + pageSize) stop ∧
      AtPage va stop (min (la + pageSize) stop) (la + pageSize) fuel := by
  obtain ⟨hle, hnear⟩ := h.near hlt
  have halign := h.align
  have hbegun := h.begun
  have hfuel := h.fuel
  unfold userTop at hword
  refine ⟨?_, ?_, ?_, ?_, ?_, ?_, ?_, ?_, ?_, ?_, ?_⟩
  · unfold sub32
    omega
  · unfold add32 pageSize
    omega
  · unfold chunkSize sub32 pageSize at *
    split_ifs <;> omega
  · unfold add32 pageSize at *
    omega
  · rw [Nat.add_mod_right, halign]
  · omega
  · exact Nat.min_le_right _ _
  · unfold pageSize at *
    omega
  · omega
  · omega
  · rw [Nat.mul_succ] at hfuel
    omega

theorem getElem?_of_read {len : ℕ} (hgot : got = (bytes.drop offset).take len) (hlen : got.length = len) {i : ℕ} (hi : i < len) :
    bytes[offset + i]? = some (got.getD i 0) := by
  have hread : got[i]? = bytes[offset + i]? := by
    rw [hgot, List.getElem?_take_of_lt hi, List.getElem?_drop]
  rw [← hread, List.getD_eq_getElem?_getD, List.getElem?_eq_getElem (by rwa [hlen])]
  rfl

theorem offset_add {i : ℕ} (h : va ≤ start) : pOffset + (start + i - va) = pOffset + (start - va) + i := by
  omega

/-- **The loop over the pages that have something from the file.** -/
theorem fileLoop_post (al : Allocs) (file : ExecFile) (htops : l.Tops) (hdir : (s₀.mm m).pgdir ∈ l.dirs)
    (hv : v ∈ (s₀.mm m).mmapList) (hstop : stop ≤ v.vmEnd)
    {perm : BitVec 12} (hperm : pteP ||| perm = pteP ||| v.perm)
    (hcontent : ∀ a, va ≤ a → a < stop → content a = file.bytes[pOffset + (a - va)]?)
    (h : l.Loading m v content va start la s₀ s) (hat : AtPage va stop start la fuel) (hlow : v.vmStart ≤ la)
    (hoffset : offset = pOffset + (start - va))
    (hpage : va < start → ∃ k, la = k + pageSize ∧ v.Has k ∧ (s.pte (slotOf (s₀.mm m).pgdir k)).page = some page) :
    ((fileLoop al file (s₀.mm m).pgdir perm stop fuel start la offset page).run s).Post
      (fun r s' => r.1 = stop ∧ l.Loading m v content va stop r.2.1 s₀ s' ∧ stop ≤ r.2.1 ∧ r.2.1 < stop + pageSize ∧
        r.2.1 % pageSize = 0 ∧
        (va < stop → ∃ k, r.2.1 = k + pageSize ∧ v.Has k ∧ (s'.pte (slotOf (s₀.mm m).pgdir k)).page = some r.2.2))
      (fun _ s' => l.Space s' m ∧ l.On m s₀ s') fun _ => False := by
  induction fuel generalizing s start la offset page with
  | zero => exact absurd hat.fuel_pos (Nat.lt_irrefl 0)
  | succ fuel ih =>
    have hrange := h.space.ranges v (by rwa [h.list])
    unfold fileLoop
    by_cases hlt : start < stop
    · obtain ⟨hoff, hnext, hsize, hadd, hat'⟩ := hat.turn hlt (Nat.le_trans hstop hrange.access.2.2)
      obtain ⟨hle, hnear⟩ := hat.near hlt
      have hla : v.Has la := ⟨hlow, Nat.lt_of_le_of_lt hle (Nat.lt_of_lt_of_le hlt hstop)⟩
      rw [if_pos hlt]
      refine Outcome.post_bind.mpr ((h.alloc al htops hdir hv hla hat.align hperm).mono ?_ (fun _ _ hf => hf.elim) fun _ hf => hf)
      rintro r s₁ (⟨rfl, hspace, hon⟩ | ⟨newPage, rfl, hload, hnew⟩)
      · exact ⟨hspace, hon⟩
      · obtain ⟨size, hsz⟩ : ∃ size, size = min (la + pageSize) stop - start := ⟨_, rfl⟩
        show Outcome.Post _ _ _ (Prog.run (loadIcodeRead al file (fun bytes s => s.writeBytes newPage (sub32 start la) bytes)
          (chunkSize (sub32 start la) (add32 la pageSize) stop) offset >>= fun _ =>
            fileLoop al file _ perm stop fuel (add32 start (chunkSize (sub32 start la) (add32 la pageSize) stop))
              (add32 la pageSize) (add32 offset (chunkSize (sub32 start la) (add32 la pageSize) stop)) newPage) s₁)
        rw [hoff, hnext, hsize, hadd]
        rw [← hsz]
        refine Outcome.post_bind.mpr ((loadIcodeRead_post al file (fun _ _ => rfl) size offset).mono ?_ ?_ fun _ hf => hf)
        · rintro got s₂ ⟨hmax, hgot, hlen, hwrote⟩
          have hfit : start - la + got.length ≤ pageSize := by
            rw [hlen, hsz]
            omega
          have hend : start + got.length ≤ v.vmEnd := by
            rw [hlen, hsz]
            omega
          have hbytes : ∀ i < got.length, content (start + i) = some (got.getD i 0) := by
            intro i hi
            rw [hlen] at hi
            rw [hcontent _ (Nat.le_trans hat.begun (Nat.le_add_right _ _)) (by omega)]
            rw [offset_add hat.begun, ← hoffset, getElem?_of_read hgot hlen hi]
          have hwritten := hload.write htops hdir hv hla hat.align hnew (Nat.add_sub_of_le hle).symm hfit hend hbytes hwrote
          have hlast : start + size = min (la + pageSize) stop := by
            rw [hsz]
            exact Nat.add_sub_of_le (Nat.le_min.mpr ⟨Nat.le_of_lt hnear, hat.le⟩)
          rw [hlen, hlast] at hwritten
          have hgrown : add32 offset size = offset + size := by
            unfold add32
            unfold sfsMaxFileSize at hmax
            unfold pageSize at *
            omega
          have hentry := hwrote.entry
          have hpte : s₂.pte (slotOf (s₀.mm m).pgdir la) = s₁.pte (slotOf (s₀.mm m).pgdir la) :=
            pte_congr (by rw [hentry]) fun _ => by rw [hentry]
          refine ih hwritten hat' (Nat.le_trans hlow (Nat.le_add_right _ _)) ?_ fun _ => ⟨la, rfl, hla, by rw [hpte, hnew]⟩
          rw [hgrown, hoffset, ← offset_add hat.begun, hlast]
        · rintro _ s₂ hwrote
          have hkept : ∀ {bs}, Wrote newPage (start - la) bs s₁ s₂ → l.Space s₂ m ∧ l.On m s₀ s₂ := fun hw =>
            ⟨hload.space.congr hw.free hw.ref hw.entry (by rw [hw.mm]), hload.writes.toOn.trans (hw.on l m)⟩
          exact hwrote.elim hkept hkept
    · have heq : start = stop := Nat.le_antisymm hat.le (Nat.le_of_not_lt hlt)
      rw [if_neg hlt]
      subst heq
      exact ⟨rfl, h, hat.past rfl, hat.bound, hat.align, hpage⟩

theorem getD_zeros {n i : ℕ} : (List.replicate n (0 : UInt8)).getD i 0 = 0 := by
  rw [List.getD_eq_getElem?_getD, List.getElem?_replicate]
  split_ifs <;> rfl

/-- **The rest of the page that the file ends in** is cleared. -/
theorem bssFirst_post (htops : l.Tops) (hdir : (s₀.mm m).pgdir ∈ l.dirs) (hv : v ∈ (s₀.mm m).mmapList) (hstop : stop ≤ v.vmEnd)
    (hcontent : ∀ a, start ≤ a → a < stop → content a = some 0) (h : l.Loading m v content va start (la + pageSize) s₀ s)
    (hla : v.Has la) (halign : la % pageSize = 0) (hpage : (s.pte (slotOf (s₀.mm m).pgdir la)).page = some page)
    (hle : la ≤ start) (hlt : start < la + pageSize) (hmore : start < stop) :
    ((bssFirst page start (la + pageSize) stop).run s).Post
      (fun r s' => r = min (la + pageSize) stop ∧ l.Loading m v content va r (la + pageSize) s₀ s')
      (fun _ _ => False) fun _ => False := by
  have hrange := h.space.ranges v (by rwa [h.list])
  have hword : stop ≤ userTop := Nat.le_trans hstop hrange.access.2.2
  unfold userTop at hword
  have hoff : sub32 (add32 start pageSize) (la + pageSize) = start - la := by
    unfold sub32 add32 pageSize at *
    omega
  have hsize : chunkSize (start - la) (la + pageSize) stop = min (la + pageSize) stop - start := by
    unfold chunkSize sub32 pageSize at *
    split_ifs <;> omega
  have hadd : add32 start (min (la + pageSize) stop - start) = min (la + pageSize) stop := by
    unfold add32 pageSize at *
    omega
  unfold bssFirst
  simp only [hoff, hsize, hadd]
  refine Outcome.post_bind.mpr (clearBytes_post.mono ?_ (fun _ _ hf => hf) ?_)
  · rintro _ s₁ ⟨hfit, hwrote⟩
    have hlen : (List.replicate (min (la + pageSize) stop - start) (0 : UInt8)).length = min (la + pageSize) stop - start :=
      List.length_replicate
    have hwritten := h.write htops hdir hv hla halign hpage (Nat.add_sub_of_le hle).symm (by rwa [hlen])
      (by rw [hlen]; omega) (fun i hi => by
        rw [hlen] at hi
        rw [hcontent _ (Nat.le_add_right _ _) (by omega), getD_zeros]) hwrote
    have hend : start + (List.replicate (min (la + pageSize) stop - start) (0 : UInt8)).length = min (la + pageSize) stop := by
      rw [hlen]
      omega
    rw [hend] at hwritten
    have hassert : (stop < la + pageSize ∧ min (la + pageSize) stop = stop) ∨
        (la + pageSize ≤ stop ∧ min (la + pageSize) stop = la + pageSize) := by
      omega
    rw [Prog.bind_of_ok (Prog.run_assert_of _ _ hassert)]
    exact ⟨rfl, hwritten⟩
  · rintro p ⟨-, hbad⟩
    unfold pageSize at *
    omega

/-- **The loop over the pages behind** makes pages that are cleared. -/
theorem bssLoop_post (al : Allocs) (htops : l.Tops) (hdir : (s₀.mm m).pgdir ∈ l.dirs) (hv : v ∈ (s₀.mm m).mmapList)
    (hstop : stop ≤ v.vmEnd) {perm : BitVec 12} (hperm : pteP ||| perm = pteP ||| v.perm)
    (hcontent : ∀ a, start ≤ a → a < stop → content a = some 0) (h : l.Loading m v content va start la s₀ s)
    (hat : AtPage va stop start la fuel) (hlow : v.vmStart ≤ la) :
    ((bssLoop al (s₀.mm m).pgdir perm stop fuel start la).run s).Post
      (fun _ s' => ∃ la', l.Loading m v content va stop la' s₀ s') (fun _ s' => l.Space s' m ∧ l.On m s₀ s') fun _ => False := by
  induction fuel generalizing s start la with
  | zero => exact absurd hat.fuel_pos (Nat.lt_irrefl 0)
  | succ fuel ih =>
    have hrange := h.space.ranges v (by rwa [h.list])
    unfold bssLoop
    by_cases hlt : start < stop
    · obtain ⟨hoff, hnext, hsize, hadd, hat'⟩ := hat.turn hlt (Nat.le_trans hstop hrange.access.2.2)
      obtain ⟨hle, hnear⟩ := hat.near hlt
      have hla : v.Has la := ⟨hlow, Nat.lt_of_le_of_lt hle (Nat.lt_of_lt_of_le hlt hstop)⟩
      rw [if_pos hlt]
      refine Outcome.post_bind.mpr ((h.alloc al htops hdir hv hla hat.align hperm).mono ?_ (fun _ _ hf => hf.elim) fun _ hf => hf)
      intro r s₁ hr
      rcases hr with ⟨hnone, hspace, hon⟩ | ⟨newPage, hsome, hload, hnew⟩
      · rw [hnone]
        exact ⟨hspace, hon⟩
      · rw [hsome]
        show Outcome.Post _ _ _ (Prog.run (clearBytes newPage (sub32 start la)
          (chunkSize (sub32 start la) (add32 la pageSize) stop) >>= fun _ =>
            bssLoop al _ perm stop fuel (add32 start (chunkSize (sub32 start la) (add32 la pageSize) stop))
              (add32 la pageSize)) s₁)
        rw [hoff, hnext, hsize, hadd]
        refine Outcome.post_bind.mpr (clearBytes_post.mono ?_ (fun _ _ hf => hf.elim) ?_)
        · rintro _ s₂ ⟨hfit, hwrote⟩
          have hlen : (List.replicate (min (la + pageSize) stop - start) (0 : UInt8)).length = min (la + pageSize) stop - start :=
            List.length_replicate
          have hwritten := hload.write htops hdir hv hla hat.align hnew (Nat.add_sub_of_le hle).symm (by rwa [hlen])
            (by rw [hlen]; omega) (fun i hi => by
              rw [hlen] at hi
              rw [hcontent _ (Nat.le_add_right _ _) (by omega), getD_zeros]) hwrote
          have hend : start + (List.replicate (min (la + pageSize) stop - start) (0 : UInt8)).length =
              min (la + pageSize) stop := by
            rw [hlen]
            omega
          rw [hend] at hwritten
          refine ih (fun a ha => hcontent a (Nat.le_trans ?_ ha)) hwritten hat' (Nat.le_trans hlow (Nat.le_add_right _ _))
          exact Nat.le_min.mpr ⟨Nat.le_of_lt hnear, hat.le⟩
        · rintro p ⟨-, hbad⟩
          omega
    · have heq : start = stop := Nat.le_antisymm hat.le (Nat.le_of_not_lt hlt)
      rw [if_neg hlt]
      subst heq
      exact ⟨la, h⟩

/-! ### A segment -/

/-- The byte that a segment should have at an offset: it is from the file, or 0. -/
def ProgHdr.byteOf (ph : ProgHdr) (file : ExecFile) (i : ℕ) : Option UInt8 :=
  if i < ph.pFilesz then file.bytes[ph.pOffset + i]? else some 0

/-- The segment is in memory. -/
structure VmState.HasSegment (s : VmState) (d : ℕ) (file : ExecFile) (ph : ProgHdr) : Prop where
  le : ph.pVa + ph.pMemsz ≤ userTop
  bytes : ∀ i < ph.pMemsz, ∃ b, s.byteAt d (ph.pVa + i) = some b ∧ ph.byteOf file i = some b

/-- The area of a segment goes to the end of the segment. -/
theorem le_areaEnd {addr len : ℕ} (hword : addr + len < 2 ^ 32) (h : areaStart addr < areaEnd addr len) :
    addr + len ≤ areaEnd addr len := by
  unfold areaStart areaEnd pageSize at *
  rw [Nat.mod_eq_of_lt hword] at h ⊢
  omega

theorem atPage_start {size : ℕ} (hpos : 0 < size) : AtPage va (va + size) va (va / pageSize * pageSize) (segmentFuel size) := by
  have halign : va / pageSize * pageSize % pageSize = 0 := Nat.mul_mod_left _ _
  have hle : va / pageSize * pageSize ≤ va := Nat.div_mul_le_self _ _
  have hlt : va < va / pageSize * pageSize + pageSize := Nat.lt_div_mul_add (Nat.succ_pos _)
  generalize va / pageSize * pageSize = la at *
  have hfuel : va + size + pageSize ≤ la + pageSize * (size / pageSize + 3) := by
    unfold pageSize at *
    omega
  refine ⟨halign, Nat.le_refl _, Nat.le_add_right _ _, fun _ => ⟨hle, hlt⟩, fun heq => ?_, ?_, hfuel⟩
  · omega
  · omega

/-- Where the loop over the pages behind starts. -/
theorem atPage_rest {size : ℕ} (halign : la % pageSize = 0) (hbegun : va ≤ start) (hle : start ≤ va + size)
    (hnext : start < va + size → start = la) (hover : start = va + size → va + size ≤ la) (hva : va ≤ la)
    (hbound : la < va + size + pageSize) : AtPage va (va + size) start la (segmentFuel size) := by
  unfold segmentFuel
  refine ⟨halign, hbegun, hle, fun hlt => ?_, hover, hbound, ?_⟩
  · rw [hnext hlt]
    exact ⟨Nat.le_refl _, Nat.lt_add_of_pos_right (Nat.succ_pos _)⟩
  · unfold pageSize at *
    omega

/-- No page is at the addresses of an area that has just been added. -/
theorem Layout.Mapped.absent_at (h : l.Mapped m v s₀ s) (hd : (s₀.mm m).pgdir ∈ l.dirs) (ha : a < ptSize * l.top) (hhas : v.Has a) :
    (s.pte (slotOf (s.mm m).pgdir a)).present = false := by
  have hlt : a < 2 ^ 32 := by
    have hstop := h.range.access.2.2
    have hhigh := hhas.2
    unfold userTop at hstop
    omega
  rw [h.grows.pgdir]
  refine h.absent _ (slotOf_mem_slots hd (pdx_lt_top ha (Nat.le_refl _))) rfl ?_
  rw [addr_slotOf_floor hlt]
  exact (has_page_iff h.range a).mpr hhas

/-- A segment that is all there. -/
theorem Layout.Loading.segment {file : ExecFile} {ph : ProgHdr} (hspace : l.Space s m) (hmapped : l.Mapped m v s s₀)
    (hcontent : ∀ i < ph.pMemsz, content (ph.pVa + i) = ph.byteOf file i)
    (h : l.Loading m v content ph.pVa (ph.pVa + ph.pMemsz) la s₀ s') :
    l.Space s' m ∧ l.Writes m (fun _ => False) s s' ∧ s'.HasSegment (s.mm m).pgdir file ph := by
  have hpgdir := hmapped.grows.pgdir
  have hnew : l.Writes m (fun _ => False) s₀ s' := h.writes.of_absent fun a ha hhas => hmapped.absent_at hspace.dir ha hhas
  refine ⟨h.space, (hmapped.grows.writes hspace).trans hspace.dir hnew, ?_, fun i hi => ?_⟩
  · exact Nat.le_trans h.le hmapped.range.access.2.2
  · obtain ⟨b, hb, hcont⟩ := h.done (ph.pVa + i) (Nat.le_add_right _ _) (Nat.add_lt_add_left hi _)
    rw [hpgdir] at hb
    rw [hcontent i hi] at hcont
    exact ⟨b, hb, hcont⟩

theorem bssRest_post (al : Allocs) {ph : ProgHdr} (htops : l.Tops) (hdir : (s₀.mm m).pgdir ∈ l.dirs)
    (hv : v ∈ (s₀.mm m).mmapList) (hend : ph.pVa + ph.pMemsz ≤ v.vmEnd) (hstart : v.vmStart ≤ ph.pVa)
    (hperm : pteP ||| ph.perm = pteP ||| v.perm) (hle : ph.pFilesz ≤ ph.pMemsz)
    (hcontent : ∀ a, ph.pVa + ph.pFilesz ≤ a → a < ph.pVa + ph.pMemsz → content a = some 0)
    (h : l.Loading m v content ph.pVa (ph.pVa + ph.pFilesz) la s₀ s) (hover : ph.pVa + ph.pFilesz ≤ la)
    (hbound : la < ph.pVa + ph.pFilesz + pageSize) (halign : la % pageSize = 0)
    (hpage : ∃ k, la = k + pageSize ∧ v.Has k ∧ (s.pte (slotOf (s₀.mm m).pgdir k)).page = some page) :
    ((bssRest al (s₀.mm m).pgdir ph (ph.pVa + ph.pFilesz) la page).run s).Post
      (fun _ s' => ∃ la', l.Loading m v content ph.pVa (ph.pVa + ph.pMemsz) la' s₀ s')
      (fun _ s' => l.Space s' m ∧ l.On m s₀ s') fun _ => False := by
  have hrange := h.space.ranges v (by rwa [h.list])
  have hstop : add32 ph.pVa ph.pMemsz = ph.pVa + ph.pMemsz := by
    have hword := Nat.le_trans hend hrange.access.2.2
    unfold userTop at hword
    unfold add32
    omega
  have hva : ph.pVa ≤ la := Nat.le_trans (Nat.le_add_right _ _) hover
  have hlow : v.vmStart ≤ la := Nat.le_trans hstart hva
  have hbound' : la < ph.pVa + ph.pMemsz + pageSize := by omega
  unfold bssRest
  rw [hstop]
  by_cases hlt : ph.pVa + ph.pFilesz < la
  · rw [if_pos hlt]
    by_cases heq : ph.pVa + ph.pFilesz = ph.pVa + ph.pMemsz
    · rw [if_pos heq]
      rw [heq] at h
      exact ⟨la, h⟩
    · rw [if_neg heq]
      obtain ⟨k, rfl, hk, hpage⟩ := hpage
      have hkalign : k % pageSize = 0 := by rwa [Nat.add_mod_right] at halign
      have hmore : ph.pVa + ph.pFilesz < ph.pVa + ph.pMemsz := Nat.lt_of_le_of_ne (Nat.add_le_add_left hle _) heq
      refine Outcome.post_bind.mpr ((bssFirst_post htops hdir hv hend hcontent h hk hkalign hpage
        (Nat.le_of_lt_add_one (by omega)) hlt hmore).mono ?_ (fun _ _ hf => hf.elim) fun _ hf => hf)
      rintro _ s₁ ⟨rfl, hload⟩
      refine bssLoop_post al htops hdir hv hend hperm (fun a ha => hcontent a ?_) hload
        (atPage_rest halign ?_ (Nat.min_le_right _ _) ?_ ?_ hva hbound') hlow
      · omega
      · omega
      · omega
      · omega
  · rw [if_neg hlt]
    have heq : ph.pVa + ph.pFilesz = la := Nat.le_antisymm hover (Nat.le_of_not_lt hlt)
    refine bssLoop_post al htops hdir hv hend hperm hcontent h ?_ hlow
    exact atPage_rest halign (Nat.le_add_right _ _) (Nat.add_le_add_left hle _) (fun _ => heq) (fun h' => by omega) hva hbound'

/-- The area for a segment, which there is if the segment has something from the file. -/
def ProgHdr.AreaIs (ph : ProgHdr) (w : Vma) : Prop :=
  ph.pType = elfPtLoad ∧ ph.pFilesz ≠ 0 ∧ w.vmStart = areaStart ph.pVa ∧ w.vmEnd = areaEnd ph.pVa ph.pMemsz

/-- **A program header is done.** -/
theorem loadSegment_post (al : Allocs) (file : ExecFile) (htops : l.Tops) (h : l.Space s m) {ph : ProgHdr}
    (hsound : ph.pType = elfPtLoad → ph.pVa + ph.pMemsz < 2 ^ 32) : ((loadSegment al file m ph).run s).Post
      (fun _ s' => l.Space s' m ∧ l.Writes m (fun _ => False) s s' ∧
        (∀ w ∈ (s'.mm m).mmapList, w ∈ (s.mm m).mmapList ∨ ph.AreaIs w) ∧
        (ph.pType = elfPtLoad → ph.pFilesz ≠ 0 → s'.HasSegment (s.mm m).pgdir file ph))
      (fun _ s' => l.Space s' m ∧ l.On m s s') fun _ => True := by
  have hrefl : l.Writes m (fun _ => False) s s := (Layout.Grows.refl l m s).writes h
  unfold loadSegment
  by_cases htype : ph.pType = elfPtLoad
  · rw [if_neg (not_not.mpr htype)]
    by_cases hbad : ph.pFilesz > ph.pMemsz
    · rw [if_pos hbad]
      exact ⟨h, .refl l m s⟩
    · rw [if_neg hbad]
      by_cases hzero : ph.pFilesz = 0
      · rw [if_pos hzero]
        exact ⟨h, hrefl, fun _ hw => Or.inl hw, fun _ hne => absurd hzero hne⟩
      · rw [if_neg hzero]
        refine Outcome.post_bind.mpr ((mmMap_post al h ph.pVa ph.pMemsz ph.vmFlags).mono ?_
          (fun _ _ h' => ⟨h'.1, h'.2.toOn⟩) fun _ _ => trivial)
        rintro _ s₁ ⟨v, harea, hmapped⟩
        have hword := hsound htype
        have hle : ph.pFilesz ≤ ph.pMemsz := Nat.le_of_not_lt hbad
        have hstart : v.vmStart = areaStart ph.pVa := congrArg Prod.fst harea
        have hstop : v.vmEnd = areaEnd ph.pVa ph.pMemsz := congrArg (fun a => a.2.1) harea
        have hflags : v.vmFlags = ph.vmFlags := congrArg (fun a => a.2.2) harea
        have hrange := hmapped.range
        have hend : ph.pVa + ph.pMemsz ≤ v.vmEnd := by
          rw [hstop]
          apply le_areaEnd hword
          rw [← hstart, ← hstop]
          exact hrange.access.2.1
        have hperm : pteP ||| ph.perm = pteP ||| v.perm := by
          unfold ProgHdr.perm Vma.perm
          rw [hflags]
        have hdir : (s₁.mm m).pgdir ∈ l.dirs := hmapped.space.dir
        have hv : v ∈ (s₁.mm m).mmapList := (hmapped.areas v).mpr (Or.inl rfl)
        have hlow : v.vmStart ≤ ph.pVa := hstart ▸ Nat.div_mul_le_self _ _
        obtain ⟨content, hcontent⟩ : ∃ content : ℕ → Option UInt8, content = fun a => ph.byteOf file (a - ph.pVa) := ⟨_, rfl⟩
        have hbytes : ∀ a, ph.pVa ≤ a → a < ph.pVa + ph.pFilesz → content a = file.bytes[ph.pOffset + (a - ph.pVa)]? := by
          intro a hle hlt
          rw [hcontent]
          exact if_pos (by omega)
        have hzeros : ∀ a, ph.pVa + ph.pFilesz ≤ a → a < ph.pVa + ph.pMemsz → content a = some 0 := by
          intro a hle _
          rw [hcontent]
          exact if_neg (by omega)
        have hall : ∀ i < ph.pMemsz, content (ph.pVa + i) = ph.byteOf file i := by
          intro i _
          rw [hcontent]
          exact congrArg (ph.byteOf file) (Nat.add_sub_cancel_left _ _)
        have hload : l.Loading m v content ph.pVa ph.pVa (ph.pVa / pageSize * pageSize) s₁ s₁ := by
          refine ⟨hmapped.space, (Layout.Grows.refl l m s₁).writes hmapped.space, rfl, fun x hx hxd _ hhas => ?_,
            fun a hle hlt => absurd hlt (Nat.not_lt.mpr hle), Nat.le_trans (Nat.le_add_right _ _) hend⟩
          exact hmapped.absent x hx (hxd.trans hmapped.grows.pgdir) hhas
        have hfile : add32 ph.pVa ph.pFilesz = ph.pVa + ph.pFilesz := by
          unfold add32
          omega
        rw [Prog.run_bind, Prog.run_get, Outcome.andThen_ok, hfile]
        refine Outcome.post_bind.mpr ((fileLoop_post al file htops hdir hv (Nat.le_trans (Nat.add_le_add_left hle _) hend) hperm
          hbytes hload (atPage_start (Nat.pos_of_ne_zero hzero)) (Nat.le_of_eq hstart) ?_ ?_).mono ?_ ?_ fun _ hf => hf.elim)
        · rw [Nat.sub_self, Nat.add_zero]
        · exact fun hlt => absurd hlt (Nat.lt_irrefl _)
        · rintro ⟨start, la, page⟩ s₂ ⟨rfl, hload₂, hover, hbound, halign, hpage⟩
          refine (bssRest_post al htops hdir hv hend hlow hperm hle hzeros hload₂ hover hbound halign
            (hpage (Nat.lt_add_of_pos_right (Nat.pos_of_ne_zero hzero)))).mono ?_ ?_ fun _ hf => hf.elim
          · rintro _ s₃ ⟨la', hdone⟩
            obtain ⟨hspace, hwrites, hsegment⟩ := hdone.segment h hmapped hall
            refine ⟨hspace, hwrites, fun w hw => ?_, fun _ _ => hsegment⟩
            rw [hdone.list] at hw
            rcases (hmapped.areas w).mp hw with rfl | hold
            · exact Or.inr ⟨htype, hzero, hstart, hstop⟩
            · exact Or.inl hold
          · rintro _ s₃ ⟨hspace, hon⟩
            exact ⟨hspace, hmapped.grows.toOn.trans hon⟩
        · rintro _ s₂ ⟨hspace, hon⟩
          exact ⟨hspace, hmapped.grows.toOn.trans hon⟩
  · rw [if_pos htype]
    exact ⟨h, hrefl, fun _ hw => Or.inl hw, fun heq => absurd heq htype⟩

end Ucore.Vm
