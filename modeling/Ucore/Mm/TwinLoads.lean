import Ucore.Mm.TwinMemories
import Mathlib.Tactic.Common

/-!
# Loading a program twice

Two runs of `load_icode`, and of page faults after it, in memories that differ only in what free pages hold.
-/

namespace Ucore.Vm

open Ucore.Lib

variable {s₀ t₀ s t s' : VmState} {K : (ℕ → MmStruct) → Prop} {T : ℕ → Prop} {m d la page start stop offset va : ℕ} {perm : BitVec 12}
  {file : ExecFile} {elf : ElfHdr} {ph : ProgHdr}

/-! ### Segments -/

theorem lockstep_seek (file : ExecFile) (offset : ℕ) : Together (Twins s₀ t₀ K T d) (file.seek offset) := by
  unfold ExecFile.seek
  refine Lockstep.ite (fun _ => ?_) fun _ => Lockstep.pure fun _ _ h => h
  cases file.grows offset with
  | none => exact Lockstep.pure fun _ _ h => h
  | some e => exact Lockstep.throw fun _ _ h => h

theorem lockstep_loadIcodeRead (al : Allocs) (file : ExecFile) {store : List UInt8 → VmState → VmState}
    (hstore : ∀ bytes s t, Twins s₀ t₀ K T d s t → Twins s₀ t₀ K T d (store bytes s) (store bytes t)) (len offset : ℕ) :
    Lockstep (Twins s₀ t₀ K T d) (fun _ s t => Twins s₀ t₀ K T d s t ∧ offset < sfsMaxFileSize) (fun _ => Twins s₀ t₀ K T d)
      (loadIcodeRead al file store len offset) := by
  unfold loadIcodeRead
  refine Lockstep.ite (fun _ => Lockstep.throw fun _ _ h => h) fun hsize => ?_
  refine Lockstep.bind (lockstep_seek file offset) fun _ => Lockstep.bind (lockstep_kmalloc al) fun r => ?_
  cases r with
  | none => exact Lockstep.throw fun _ _ h => h
  | some buffer =>
    refine Lockstep.bind (Lockstep.modify (Q := fun _ => Twins s₀ t₀ K T d) fun s t h => hstore _ s t h) fun _ =>
      Lockstep.bind (lockstep_kfree buffer) fun _ => Lockstep.ite (fun _ => Lockstep.pure fun _ _ h => ⟨h, Nat.not_le.mp hsize⟩)
        fun _ => Lockstep.throw fun _ _ h => h

/-- Where the loop over the pages with something from the file is: it ends, or it is not far behind the start of the segment, as the
file is not longer than `SFS_MAX_FILE_SIZE`. -/
def FilePlace (va stop start la offset : ℕ) : Prop :=
  stop ≤ start ∨ (la ≤ start ∧ start < la + pageSize ∧ start ≤ va + offset ∧ start ≤ va + sfsMaxFileSize + pageSize)

theorem FilePlace.la_lt (h : FilePlace va stop start la offset) (hlt : start < stop) (hva : va < userTop) : la < kernBase := by
  obtain ⟨hle, -, -, hfar⟩ := h.resolve_left (Nat.not_le.mpr hlt)
  unfold sfsMaxFileSize pageSize at hfar
  unfold userTop at hva
  unfold kernBase
  omega

theorem FilePlace.turn (h : FilePlace va stop start la offset) (hlt : start < stop) (hva : va < userTop) (hstop : stop < 2 ^ 32)
    (hoffset : offset < sfsMaxFileSize) : FilePlace va stop
      (add32 start (chunkSize (sub32 start la) (add32 la pageSize) stop)) (add32 la pageSize)
      (add32 offset (chunkSize (sub32 start la) (add32 la pageSize) stop)) := by
  have hla := h.la_lt hlt hva
  obtain ⟨hle, hpage, hfile, hfar⟩ := h.resolve_left (Nat.not_le.mpr hlt)
  unfold userTop at hva
  unfold kernBase at hla
  unfold FilePlace chunkSize add32 sub32
  unfold sfsMaxFileSize pageSize at *
  split_ifs with hlast
  · left
    omega
  · right
    omega

theorem lockstep_fileLoop (al : Allocs) (file : ExecFile) (hva : va < userTop) (hstop : stop < 2 ^ 32) {fuel : ℕ}
    (hplace : FilePlace va stop start la offset) : Together (Twins s₀ t₀ K T d) (fileLoop al file d perm stop fuel start la offset page) := by
  induction fuel generalizing start la offset page with
  | zero => exact Lockstep.stop _
  | succ fuel ih =>
    unfold fileLoop
    refine Lockstep.ite (fun hlt => ?_) fun _ => Lockstep.pure fun _ _ h => h
    refine Lockstep.bind (lockstep_pgdirAllocPage al (hplace.la_lt hlt hva) perm) fun r => ?_
    cases r with
    | none => exact Lockstep.throw fun _ _ h => h
    | some page =>
      refine Lockstep.bind (lockstep_loadIcodeRead al file (fun bytes s t h => h.writeBytes _ _ bytes) _ _) fun _ => ?_
      exact fun s t h => ih (hplace.turn hlt hva hstop h.2) s t h.1

theorem lockstep_clearBytes (page off size : ℕ) : Together (Twins s₀ t₀ K T d) (clearBytes page off size) := by
  unfold clearBytes
  exact Lockstep.ite (fun _ => Lockstep.modify fun _ _ h => h.writeBytes _ _ _) fun _ => Lockstep.stop _

/-- Where the loop over the pages behind is. -/
theorem bssPlace_turn (hplace : la ≤ start ∨ stop ≤ start) (hlt : start < stop) (hstop : stop ≤ userTop) :
    add32 la pageSize ≤ add32 start (chunkSize (sub32 start la) (add32 la pageSize) stop) ∨
      stop ≤ add32 start (chunkSize (sub32 start la) (add32 la pageSize) stop) := by
  have hle := hplace.resolve_right (Nat.not_le.mpr hlt)
  unfold userTop at hstop
  unfold chunkSize add32 sub32 pageSize
  split_ifs with hlast
  · right
    omega
  · left
    omega

theorem lockstep_bssLoop (al : Allocs) (hstop : stop ≤ userTop) {fuel : ℕ} (hplace : la ≤ start ∨ stop ≤ start) :
    Together (Twins s₀ t₀ K T d) (bssLoop al d perm stop fuel start la) := by
  induction fuel generalizing start la with
  | zero => exact Lockstep.stop _
  | succ fuel ih =>
    unfold bssLoop
    refine Lockstep.ite (fun hlt => ?_) fun _ => Lockstep.pure fun _ _ h => h
    have hla : la < kernBase :=
      Nat.lt_of_le_of_lt (hplace.resolve_right (Nat.not_le.mpr hlt)) (Nat.lt_of_lt_of_le hlt (Nat.le_trans hstop (by decide)))
    refine Lockstep.bind (lockstep_pgdirAllocPage al hla perm) fun r => ?_
    cases r with
    | none => exact Lockstep.throw fun _ _ h => h
    | some page => exact Lockstep.bind (lockstep_clearBytes _ _ _) fun _ => ih (bssPlace_turn hplace hlt hstop)

theorem lockstep_bssRest (al : Allocs) (hstop : add32 ph.pVa ph.pMemsz ≤ userTop) : Together (Twins s₀ t₀ K T d) (bssRest al d ph start la page) := by
  unfold bssRest
  refine Lockstep.ite (fun _ => Lockstep.ite (fun _ => Lockstep.pure fun _ _ h => h) fun _ => ?_) fun hle => ?_
  · unfold bssFirst
    refine Lockstep.bind (Q := fun start s t => Twins s₀ t₀ K T d s t ∧ (la ≤ start ∨ add32 ph.pVa ph.pMemsz ≤ start))
      (Lockstep.bind (lockstep_clearBytes _ _ _) fun _ => Lockstep.assert_bind fun hend => Lockstep.pure fun s t h => ⟨h, ?_⟩)
      fun start s t h => lockstep_bssLoop al hstop h.2 s t h.1
    rcases hend with ⟨-, heq⟩ | ⟨-, heq⟩
    · exact Or.inr (Nat.le_of_eq heq.symm)
    · exact Or.inl (Nat.le_of_eq heq.symm)
  · exact lockstep_bssLoop al hstop (Or.inl (Nat.not_lt.mp hle))

/-- What the check of `mm_map` says of a segment. -/
theorem user_of_access {addr len : ℕ} (h : UserAccess (areaStart addr) (areaEnd addr len)) : addr < userTop ∧ add32 addr len ≤ userTop := by
  obtain ⟨-, hlt, hle⟩ := h
  unfold areaStart areaEnd at hlt
  unfold areaEnd at hle
  unfold userTop pageSize at *
  unfold add32
  omega

theorem lockstep_loadSegment (al : Allocs) (file : ExecFile) (ph : ProgHdr) : Together (Twins s₀ t₀ (UserMm m d) T d) (loadSegment al file m ph) := by
  unfold loadSegment
  refine Lockstep.ite (fun _ => Lockstep.pure fun _ _ h => h) fun _ => Lockstep.ite (fun _ => Lockstep.throw fun _ _ h => h) fun _ =>
    Lockstep.ite (fun _ => Lockstep.pure fun _ _ h => h) fun _ => Lockstep.bind (lockstep_mmMap al _ _ _) fun _ => ?_
  intro s t h
  obtain ⟨hva, hstop⟩ := user_of_access h.2
  refine Lockstep.get_bind (R := Twins s₀ t₀ (UserMm m d) T d) (by rintro s _ ⟨⟨b, e, rfl⟩, -⟩; rfl) (fun s t h => ?_) s t h.1
  rw [h.mm.pgdir]
  have hplace : FilePlace ph.pVa (add32 ph.pVa ph.pFilesz) ph.pVa (ph.pVa / pageSize * pageSize) ph.pOffset := by
    refine Or.inr ⟨Nat.div_mul_le_self _ _, ?_, Nat.le_add_right _ _, by omega⟩
    unfold pageSize
    omega
  exact Lockstep.bind (lockstep_fileLoop al file hva (Nat.mod_lt _ (Nat.succ_pos _)) hplace)
    (fun r => lockstep_bssRest al hstop) s t h

theorem lockstep_loadSegments (al : Allocs) (file : ExecFile) (elf : ElfHdr) (phnums : List ℕ) :
    Together (Twins s₀ t₀ (UserMm m d) T d)
      (loadSegments al file m elf phnums) := by
  induction phnums with
  | nil => exact Lockstep.pure fun _ _ h => h
  | cons phnum phnums ih =>
    refine Lockstep.bind (lockstep_loadIcodeRead al file (fun _ _ _ h => h) _ _) fun bytes => ?_
    exact Lockstep.bind ((lockstep_loadSegment al file _).pre fun _ _ h => h.1) fun _ => ih

theorem lockstep_loadAreas (al : Allocs) (file : ExecFile) (elf : ElfHdr) : Together (Twins s₀ t₀ (UserMm m d) T d) (loadAreas al file m elf) :=
  Lockstep.bind (lockstep_loadSegments al file elf _) fun _ =>
    (lockstep_mmMap al _ _ _).mono (fun _ _ _ h => h.1) fun _ _ _ h => h

/-! ### Page faults, and the stack -/

theorem lockstep_doPgfault (al : Allocs) (code addr : ℕ) : Together (Twins s₀ t₀ (UserMm m d) T d) (doPgfault al m code addr) := by
  unfold doPgfault
  refine Lockstep.bind (lockstep_findVma addr) fun r => ?_
  cases r with
  | none => exact Lockstep.throw fun _ _ h => h.1
  | some vma =>
    intro s t h
    have hla : addr / pageSize * pageSize < kernBase :=
      Nat.lt_of_le_of_lt (Nat.div_mul_le_self _ _) (Nat.lt_trans (h.2 vma rfl) (by decide))
    refine Lockstep.ite (fun _ => Lockstep.throw fun _ _ h => h) (fun _ => ?_) s t h.1
    refine Lockstep.get_bind (by rintro s _ ⟨⟨b, e, rfl⟩, -⟩; rfl) fun s t h => ?_
    rw [h.mm.pgdir]
    refine Lockstep.bind (lockstep_getPte al hla true) (fun r => ?_) s t h
    cases r with
    | none => exact Lockstep.throw fun _ _ h => h.1
    | some table =>
      refine Lockstep.get_bind (fun s t h => ?_) fun s t h => ?_
      · obtain ⟨h, htable⟩ := h
        have hentry := (htable table rfl).entry
        obtain ⟨b, e, rfl⟩ := h.rest
        rw [hentry]
      · refine Lockstep.ite (fun _ => ?_) (fun _ => Lockstep.ite (fun _ => Lockstep.stop _) fun _ => Lockstep.throw fun _ _ h => h) s t h.1
        rw [h.1.mm.pgdir]
        refine Lockstep.bind (lockstep_pgdirAllocPage al hla _) fun r => ?_
        cases r with
        | none => exact Lockstep.throw fun _ _ h => h
        | some page => exact Lockstep.pure fun _ _ h => h

theorem lockstep_stackPages (al : Allocs) {ks : List ℕ} : Together (Twins s₀ t₀ K T d) (stackPages al d ks) := by
  induction ks with
  | nil => exact Lockstep.pure fun _ _ h => h
  | cons k ks ih =>
    unfold stackPages
    refine Lockstep.bind (lockstep_pgdirAllocPage al (Nat.lt_of_le_of_lt (Nat.sub_le _ _) (by decide)) _) fun r => ?_
    cases r with
    | none => exact Lockstep.stop _
    | some page => exact ih

/-- What the kernel finds out about an address is the same in both runs. -/
theorem Twins.writable (h : Twins s₀ t₀ K T d s t) (hla : la < kernBase) : t.writable d la = s.writable d la := by
  unfold VmState.writable
  dsimp only
  rw [h.dir]
  by_cases hpresent : (s.entry d (pdx la)).present = true
  · rw [(h.tables _ (pdx_lt_userPdes hla) hpresent).entry]
  · rw [if_neg fun hand => hpresent hand.1, if_neg fun hand => hpresent hand.1]

theorem Twins.faultPresent (h : Twins s₀ t₀ K T d s t) (hla : la < kernBase) : t.faultPresent d la = s.faultPresent d la := by
  unfold VmState.faultPresent
  rw [h.dir]
  by_cases hpresent : (s.entry d (pdx la)).present = true
  · rw [(h.tables _ (pdx_lt_userPdes hla) hpresent).entry]
  · rw [if_neg fun hand => hpresent hand.1, if_neg fun hand => hpresent hand.1]

theorem lockstep_storeByte (al : Allocs) (hla : la < kernBase) (b : UInt8) : Together (Twins s₀ t₀ (UserMm m d) T d) (storeByte al m la b) := by
  unfold storeByte
  have hread : ∀ s t, Twins s₀ t₀ (UserMm m d) T d s t → (t.mm m).pgdir = d ∧ (s.mm m).pgdir = d := by
    rintro s t h
    have hs := h.mm.pgdir
    obtain ⟨b, e, rfl⟩ := h.rest
    exact ⟨hs, hs⟩
  have hstore : ∀ page, Together (Twins s₀ t₀ (UserMm m d) T d) (Prog.modify fun s => s.writeBytes page (la % pageSize) [b] : VmProg Unit) :=
    fun page => Lockstep.modify fun _ _ h => h.writeBytes _ _ _
  refine Lockstep.get_bind (fun s t h => ?_) fun s t h => ?_
  · dsimp only
    rw [(hread s t h).1, (hread s t h).2, h.writable hla, h.faultPresent hla]
  · rw [(hread s t h).2]
    dsimp only
    cases s.writable d la with
    | some page => exact hstore page s t h
    | none =>
      refine Lockstep.bind (Lockstep.attempt (T := fun _ => Twins s₀ t₀ (UserMm m d) T d) (lockstep_doPgfault al _ la) (fun _ _ _ h => h)
        fun _ _ _ h => h) (fun r => ?_) s t h
      cases r with
      | error e => exact Lockstep.stop _
      | ok u =>
        refine Lockstep.get_bind (fun s t h => ?_) fun s' t' h' => ?_
        · rw [h.writable hla]
        · cases s'.writable d la with
          | some page => exact hstore page s' t' h'
          | none => exact Lockstep.stop _ s' t' h'

theorem lockstep_storeBytes (al : Allocs) {bytes : List UInt8} (hla : la + bytes.length ≤ kernBase) : Together (Twins s₀ t₀ (UserMm m d) T d)
    (storeBytes al m la bytes) := by
  induction bytes generalizing la with
  | nil => exact Lockstep.pure fun _ _ h => h
  | cons b bytes ih =>
    rw [List.length_cons] at hla
    unfold storeBytes
    exact Lockstep.bind (lockstep_storeByte al (by omega) b) fun _ => ih (by omega)

theorem lockstep_storeArgs (al : Allocs) {args : List (List UInt8)} {dst uargv : ℕ} (hlen : ∀ arg ∈ args, arg.length ≤ execMaxArgLen)
    (hend : dst + argvSize args ≤ kernBase) (hend' : uargv + 4 * args.length ≤ kernBase) : Together (Twins s₀ t₀ (UserMm m d) T d)
    (storeArgs al m dst uargv args) := by
  induction args generalizing dst uargv with
  | nil => exact Lockstep.pure fun _ _ h => h
  | cons arg args ih =>
    have harg := hlen arg List.mem_cons_self
    have hstring : (arg ++ [0]).length = arg.length + 1 := List.length_append
    have hword : (bytes32 dst).length = 4 := rfl
    rw [argvSize_cons args harg] at hend
    rw [List.length_cons] at hend'
    unfold storeArgs
    rw [strnlen_of_le harg]
    refine Lockstep.bind (lockstep_storeBytes al (by omega)) fun _ => Lockstep.bind (lockstep_storeBytes al (by omega)) fun _ => ?_
    exact ih (fun arg' h' => hlen arg' (List.mem_cons_of_mem arg h')) (by omega) (by omega)

theorem lockstep_finishLoad (al : Allocs) (elf : ElfHdr) {args : List (List UInt8)} (hargs : ArgsOk args) : Lockstep
    (Twins s₀ t₀ (UserMm m d) T d) (fun r s t => r.mm = m ∧ Twins s₀ t₀ (UserMm m d) T d s t) (fun _ => Twins s₀ t₀ (UserMm m d) T d)
    (finishLoad al m elf args) := by
  obtain ⟨-, hsum, htop, hle, hend⟩ := hargs.stack
  have huser : userTop ≤ kernBase := by decide
  have hword : (bytes32 args.length).length = 4 := rfl
  unfold finishLoad
  refine Lockstep.get_bind (by rintro s _ ⟨⟨b, e, rfl⟩, -⟩; rfl) fun s t h => ?_
  rw [h.mm.pgdir]
  refine Lockstep.bind (lockstep_stackPages al) (fun _ => Lockstep.bind (Q := fun _ => Twins s₀ t₀ (UserMm m d) T d)
    (Lockstep.modify fun s t h => ?_) fun _ => ?_) s t h
  · refine h.setMm m _ ⟨?_, ?_, ?_⟩ <;> rw [Function.update_self]
    · exact h.mm.pgdir
    · exact h.mm.areas
    · exact h.mm.cache
  · unfold storeArguments
    refine Lockstep.bind (Lockstep.bind (lockstep_storeArgs al hargs.len (Nat.le_trans htop huser) (Nat.le_trans hend huser)) fun _ =>
      lockstep_storeBytes al (by omega)) fun _ => Lockstep.pure fun _ _ h => ⟨rfl, h⟩

/-! ### The beginning -/

/-- The states differ only in what free pages hold. -/
structure SameButFree (s t : VmState) : Prop where
  rest : SameRest s t
  byte : ∀ p ∉ s.free, t.byte p = s.byte p
  entry : ∀ p ∉ s.free, t.entry p = s.entry p

/-- The page of `boot_pgdir` is in use, and has no entries for user addresses. -/
structure VmState.Booted (s : VmState) : Prop where
  taken : s.bootPgdir ∉ s.free
  empty : ∀ i < userPdes, (s.entry s.bootPgdir i).present = false

/-- No page has been written yet. -/
structure Begun (s₀ t₀ s t : VmState) : Prop where
  rest : SameRest s t
  byte : s.byte = s₀.byte ∧ t.byte = t₀.byte
  entry : s.entry = s₀.entry ∧ t.entry = t₀.entry
  free : s.free = s₀.free
  boot : s.bootPgdir = s₀.bootPgdir

theorem Begun.modify {f : VmState → VmState} (h : Begun s₀ t₀ s t) (hf : ∀ s b e, f (s.withPages b e) = (f s).withPages b e)
    (hbyte : ∀ s, (f s).byte = s.byte) (hentry : ∀ s, (f s).entry = s.entry) (hfree : (f s).free = s.free)
    (hboot : (f s).bootPgdir = s.bootPgdir) : Begun s₀ t₀ (f s) (f t) := by
  refine ⟨?_, ?_, ?_, hfree.trans h.free, hboot.trans h.boot⟩
  · obtain ⟨b, e, rfl⟩ := h.rest
    exact ⟨b, e, hf s b e⟩
  · rw [hbyte, hbyte]
    exact h.byte
  · rw [hentry, hentry]
    exact h.entry

theorem together_kmalloc (al : Allocs) : Together (Begun s₀ t₀) (kmalloc al) := by
  unfold kmalloc
  refine Lockstep.get_bind (by rintro s _ ⟨⟨b, e, rfl⟩, -⟩; rfl) fun s t h => ?_
  refine Lockstep.seq (Lockstep.modify fun s t h => ?_) (fun _ => Lockstep.ite (fun _ => Lockstep.pure fun _ _ h => h) fun _ => ?_) s t h
  · exact h.modify (f := fun s => { s with asked := s.asked + 1 }) (fun _ _ _ => rfl) (fun _ => rfl) (fun _ => rfl) rfl rfl
  · refine Lockstep.seq (Lockstep.modify fun s t h => ?_) fun _ => Lockstep.pure fun _ _ h => h
    exact h.modify (f := fun s => { s with blocks := s.freshBlock :: s.blocks, freshBlock := s.freshBlock + 1 }) (fun _ _ _ => rfl)
      (fun _ => rfl) (fun _ => rfl) rfl rfl

theorem lockstep_mmCreate (al : Allocs) : Lockstep (Begun s₀ t₀)
    (fun r s t => Begun s₀ t₀ s t ∧ ∀ m, r = some m → s.mm m = ⟨[], none, 0, 0, 0⟩) (fun _ => Begun s₀ t₀) (mmCreate al) := by
  unfold mmCreate
  refine Lockstep.bind (together_kmalloc al) fun r => ?_
  cases r with
  | none => exact Lockstep.pure fun _ _ h => ⟨h, fun _ hnone => nomatch hnone⟩
  | some m =>
    refine Lockstep.bind (Q := fun _ s t => Begun s₀ t₀ s t ∧ s.mm m = ⟨[], none, 0, 0, 0⟩) (Lockstep.modify fun s t h => ⟨?_, ?_⟩)
      fun _ => Lockstep.bind (Q := fun _ s t => Begun s₀ t₀ s t ∧ s.mm m = ⟨[], none, 0, 0, 0⟩)
        (Lockstep.modify fun s t h => ⟨?_, h.2⟩) fun _ => Lockstep.pure fun s t h => ⟨h.1, fun _ hsome => Option.some.inj hsome ▸ h.2⟩
    · exact h.modify (f := fun s => s.setMm m fun _ => ⟨[], none, 0, 0, 0⟩) (fun _ _ _ => rfl) (fun _ => rfl) (fun _ => rfl) rfl rfl
    · exact Function.update_self _ _ _
    · exact h.1.modify (f := fun s => { s with mms := m :: s.mms }) (fun _ _ _ => rfl) (fun _ => rfl) (fun _ => rfl) rfl rfl

/-- The new page directory is the same in both runs. -/
theorem Begun.withDir (h : Begun s₀ t₀ s t) (hsame : SameButFree s₀ t₀) (hboot : s₀.Booted) (hmm : s.mm m = ⟨[], none, 0, 0, 0⟩)
    (page : ℕ) : Twins s₀ t₀ (UserMm m page) (fun _ => False) page ((s.withDir page).setMm m fun d => { d with pgdir := page })
      ((t.withDir page).setMm m fun d => { d with pgdir := page }) := by
  have hdir : t.entry t.bootPgdir = s.entry s.bootPgdir := by
    have heq : t.bootPgdir = s.bootPgdir := by
      obtain ⟨b, e, rfl⟩ := h.rest
      rfl
    rw [heq, h.entry.1, h.entry.2, h.boot]
    exact hsame.entry _ hboot.taken
  refine ⟨?_, fun p i => ?_, ?_, fun i hi hpresent => ?_, fun _ hf => hf.elim, ?_, ?_⟩
  · obtain ⟨b, e, rfl⟩ := h.rest
    exact ⟨b, _, rfl⟩
  · show t.byte p i = s.byte p i ∨ p ∈ s₀.free ∧ s.byte p i = s₀.byte p i ∧ t.byte p i = t₀.byte p i
    rw [h.byte.1, h.byte.2]
    by_cases hp : p ∈ s₀.free
    · exact Or.inr ⟨hp, rfl, rfl⟩
    · exact Or.inl (by rw [hsame.byte p hp])
  · show Function.update (Function.update t.entry page _) page _ page = Function.update (Function.update s.entry page _) page _ page
    rw [Function.update_self, Function.update_self, hdir]
    simp only [Function.update_self]
  · have hne : i ≠ pdxVpt := fun heq => absurd (heq ▸ hi) (by decide)
    have hold : ((s.withDir page).entry page i).present = true := hpresent
    rw [entry_withDir_self hne, h.entry.1, h.boot, hboot.empty i hi] at hold
    cases hold
  · intro hmem
    exact (mem_free_taken.mp hmem).2 rfl
  · have hself : ((s.withDir page).setMm m fun d => { d with pgdir := page }).mm m = { s.mm m with pgdir := page } :=
      Function.update_self _ _ _
    refine ⟨?_, ?_, ?_⟩ <;> rw [hself, hmm]
    · exact fun v hv => (List.not_mem_nil hv).elim
    · exact fun v hv => nomatch hv

theorem lockstep_setupPgdir (al : Allocs) (hsame : SameButFree s₀ t₀) (hboot : s₀.Booted) : Lockstep
    (fun s t => Begun s₀ t₀ s t ∧ s.mm m = ⟨[], none, 0, 0, 0⟩)
    (fun _ s t => ∃ d, Twins s₀ t₀ (UserMm m d) (fun _ => False) d s t) (fun _ => SameRest) (setupPgdir al m) := by
  rintro s t ⟨h, hmm⟩
  have hpicks : al.pick t.asked 1 t.free = al.pick s.asked 1 s.free := by
    obtain ⟨b, e, rfl⟩ := h.rest
    rfl
  unfold setupPgdir allocPages
  rw [Prog.run_bind, Prog.run_bind, Prog.run_bind, Prog.run_bind, Prog.run_get, Prog.run_get, Outcome.andThen_ok, Outcome.andThen_ok,
    Prog.run_bind, Prog.run_bind, Prog.run_modify, Prog.run_modify, Outcome.andThen_ok, Outcome.andThen_ok, hpicks]
  cases al.pick s.asked 1 s.free with
  | none =>
    refine .error ?_
    obtain ⟨b, e, rfl⟩ := h.rest
    exact ⟨b, e, rfl⟩
  | some page => exact .ok ⟨page, h.withDir hsame hboot hmm page⟩

theorem lockstep_readElfHdr (al : Allocs) (file : ExecFile) : Together (Twins s₀ t₀ K T d) (readElfHdr al file) := by
  unfold readElfHdr
  refine Lockstep.bind (lockstep_loadIcodeRead al file (fun _ _ _ h => h) _ _) fun bytes => ?_
  exact Lockstep.ite (fun _ => Lockstep.throw fun _ _ h => h.1) fun _ => Lockstep.pure fun _ _ h => h.1

/-- **Two runs of `load_icode`** end in the same way. -/
theorem lockstep_loadIcode (al : Allocs) (file : ExecFile) (hsame : SameButFree s₀ t₀) (hboot : s₀.Booted) {args : List (List UInt8)}
    (hargs : ArgsOk args) : Lockstep (Begun s₀ t₀) (fun r s t => ∃ d, Twins s₀ t₀ (UserMm r.mm d) (fun _ => False) d s t)
      (fun _ _ _ => True) (loadIcode al file args) := by
  unfold loadIcode
  refine Lockstep.bind ((lockstep_mmCreate al).mono (fun _ _ _ h => h) fun _ _ _ _ => trivial) fun r => ?_
  cases r with
  | none => exact Lockstep.throw fun _ _ _ => trivial
  | some m =>
    refine Lockstep.bind (Q := fun r s t => SameRest s t ∧ ∀ u, r = .ok u → ∃ d, Twins s₀ t₀ (UserMm m d) (fun _ => False) d s t)
      (Lockstep.attempt ((lockstep_setupPgdir al hsame hboot).pre fun _ _ h => ⟨h.1, h.2 m rfl⟩) ?_ ?_) fun r => ?_
    · rintro u s t ⟨d, h⟩
      exact ⟨h.rest, fun _ _ => ⟨d, h⟩⟩
    · exact fun e s t h => ⟨h, fun _ heq => nomatch heq⟩
    · cases r with
      | error e =>
        refine Lockstep.bind (((lockstep_mmDestroy m).pre fun _ _ h => h.1).mono (fun _ _ _ h => h) fun _ _ _ _ => trivial) fun _ => ?_
        exact Lockstep.throw fun _ _ _ => trivial
      | ok u =>
        rintro s t ⟨-, hdir⟩
        obtain ⟨d, h⟩ := hdir u rfl
        refine Lockstep.bind (Q := fun _ => Twins s₀ t₀ (UserMm m d) (fun _ => False) d)
          (Lockstep.attempt (lockstep_readElfHdr al file) (fun _ _ _ h => h) fun _ _ _ h => h) (fun r => ?_) s t h
        cases r with
        | error e =>
          refine Lockstep.bind (((lockstep_putPgdir m).pre fun _ _ h => h.rest).mono (fun _ _ _ h => h) fun _ _ _ _ => trivial) fun _ => ?_
          refine Lockstep.bind ((lockstep_mmDestroy m).mono (fun _ _ _ h => h) fun _ _ _ _ => trivial) fun _ => ?_
          exact Lockstep.throw fun _ _ _ => trivial
        | ok elf =>
          refine Lockstep.bind (Q := fun _ => Twins s₀ t₀ (UserMm m d) (fun _ => False) d)
            (Lockstep.attempt (lockstep_loadAreas al file elf) (fun _ _ _ h => h) fun _ _ _ h => h) fun r => ?_
          cases r with
          | error e => exact Lockstep.bind (lockstep_cleanupMm al m) fun _ => Lockstep.throw fun _ _ _ => trivial
          | ok u =>
            refine (lockstep_finishLoad al elf hargs).mono ?_ fun _ _ _ _ => trivial
            rintro r s t ⟨rfl, h⟩
            exact ⟨d, h⟩

end Ucore.Vm
