import Ucore.Mm.LoadSegments
import Mathlib.Tactic.Common

/-!
# The areas of a program

The rest of `load_icode`: the loop over the program headers, the stack, and the arguments that are stored in it.

* `ExecFile.Sound` is for a file whose segments do not go beyond 32 bits. For such a file each step keeps the invariant of
  the address space.
* `Layout.Prepared` is what `loadAreas` has made (`loadAreas_post`), and `Layout.Finished` what there is in the end
  (`finishLoad_post`): the segments are in memory.
* `ArgsOk` is what `do_execve` has checked of the arguments.
-/

namespace Ucore.Vm

open Ucore.Lib

variable {s₀ s s₁ s' : VmState} {m d la a : ℕ} {l : Layout} {v : Vma} {file : ExecFile} {elf : ElfHdr} {ph : ProgHdr}
  {W : ℕ → Prop}

/-- The ELF header of a file. -/
def ExecFile.elfHdr (file : ExecFile) : ElfHdr := .ofBytes ((file.bytes.drop 0).take elfHdrSize)

/-- A program header of a file. -/
def ExecFile.progHdr (file : ExecFile) (elf : ElfHdr) (phnum : ℕ) : ProgHdr :=
  .ofBytes ((file.bytes.drop (add32 elf.ePhoff (progHdrSize * phnum))).take progHdrSize)

/-- No segment goes beyond 32 bits. -/
def ExecFile.Sound (file : ExecFile) (elf : ElfHdr) : Prop :=
  ∀ phnum < elf.ePhnum, (file.progHdr elf phnum).pType = elfPtLoad →
    (file.progHdr elf phnum).pVa + (file.progHdr elf phnum).pMemsz < 2 ^ 32

/-- The segment is in memory, if it is one to load. -/
def VmState.Loads (s : VmState) (d : ℕ) (file : ExecFile) (ph : ProgHdr) : Prop :=
  ph.pType = elfPtLoad → ph.pFilesz ≠ 0 → s.HasSegment d file ph

/-- A segment stays, where nothing is written to it. -/
theorem VmState.HasSegment.kept (h : s.HasSegment (s.mm m).pgdir file ph) (htops : l.Tops) (hwrites : l.Writes m W s s')
    (hnot : ∀ i < ph.pMemsz, ¬ W (ph.pVa + i)) : s'.HasSegment (s.mm m).pgdir file ph := by
  refine ⟨h.le, fun i hi => ?_⟩
  obtain ⟨b, hb, hbyte⟩ := h.bytes i hi
  have hlt : ph.pVa + i < ptSize * l.top :=
    Nat.lt_of_lt_of_le (Nat.add_lt_add_left hi _) (Nat.le_trans h.le htops.user)
  have hpresent : (s.pte (slotOf (s.mm m).pgdir (ph.pVa + i))).present = true := by
    rw [← isSome_byteAt, hb]
    rfl
  exact ⟨b, by rw [hwrites.bytes _ hlt hpresent (hnot i hi), hb], hbyte⟩

theorem VmState.Loads.kept (h : s.Loads (s.mm m).pgdir file ph) (htops : l.Tops)
    (hwrites : l.Writes m (fun _ => False) s s') : s'.Loads (s.mm m).pgdir file ph := fun htype hzero =>
  (h htype hzero).kept htops hwrites fun _ _ hf => hf

/-! ### The segments -/

/-- **The loop over the program headers.** -/
theorem loadSegments_post (al : Allocs) (file : ExecFile) (htops : l.Tops) (h : l.Space s m) {phnums : List ℕ}
    (hsound : ∀ phnum ∈ phnums, (file.progHdr elf phnum).pType = elfPtLoad →
      (file.progHdr elf phnum).pVa + (file.progHdr elf phnum).pMemsz < 2 ^ 32) :
    ((loadSegments al file m elf phnums).run s).Post
      (fun _ s' => l.Space s' m ∧ l.Writes m (fun _ => False) s s' ∧
        (∀ w ∈ (s'.mm m).mmapList, w ∈ (s.mm m).mmapList ∨ ∃ phnum ∈ phnums, (file.progHdr elf phnum).AreaIs w) ∧
        ∀ phnum ∈ phnums, s'.Loads (s.mm m).pgdir file (file.progHdr elf phnum))
      (fun _ s' => l.Space s' m ∧ l.On m s s') fun _ => True := by
  induction phnums generalizing s with
  | nil => exact ⟨h, (Layout.Grows.refl l m s).writes h, fun _ hw => Or.inl hw, fun _ hmem => (List.not_mem_nil hmem).elim⟩
  | cons phnum phnums ih =>
    unfold loadSegments
    refine Outcome.post_bind.mpr ((loadIcodeRead_header al file _ _).mono ?_ ?_ fun _ hf => hf.elim)
    · rintro _ s₁ ⟨rfl, hwrote⟩
      have hspace : l.Space s₁ m := h.congr hwrote.free hwrote.ref hwrote.entry (by rw [hwrote.mm])
      have hon : l.On m s s₁ := hwrote.on l m
      have hwrites : l.Writes m (fun _ => False) s s₁ := by
        have hentry := hwrote.entry
        have hbyte : s₁.byte = s.byte := by rw [hwrote.byte, writeBytes_nil]
        have hpte : ∀ x, s₁.pte x = s.pte x := fun x => pte_congr (by rw [hentry]) fun _ => by rw [hentry]
        refine ⟨hon, fun x _ _ => hpte x, fun a _ _ _ => ?_⟩
        unfold VmState.byteAt
        rw [hpte, hbyte]
      refine Outcome.post_bind.mpr ((loadSegment_post al file htops hspace (hsound phnum List.mem_cons_self)).mono ?_ ?_
        fun _ _ => trivial)
      · rintro _ s₂ ⟨hspace₂, hwrites₂, hareas₂, hseg⟩
        refine (ih hspace₂ fun k hk => hsound k (List.mem_cons_of_mem phnum hk)).mono ?_ ?_ fun _ _ => trivial
        · rintro _ s₃ ⟨hspace₃, hwrites₃, hareas₃, hsegs⟩
          have hdir₂ : (s₂.mm m).pgdir = (s.mm m).pgdir := hwrites₂.pgdir.trans hon.pgdir
          rw [hdir₂] at hsegs
          refine ⟨hspace₃, (hwrites.trans h.dir hwrites₂).trans h.dir hwrites₃, fun w hw => ?_, fun k hk => ?_⟩
          · rcases hareas₃ w hw with hw | ⟨k, hk, hw⟩
            · rcases hareas₂ w hw with hw | hw
              · rw [hwrote.mm] at hw
                exact Or.inl hw
              · exact Or.inr ⟨phnum, List.mem_cons_self, hw⟩
            · exact Or.inr ⟨k, List.mem_cons_of_mem phnum hk, hw⟩
          rcases List.mem_cons.mp hk with rfl | hk
          · have hloads : s₂.Loads (s₂.mm m).pgdir file (file.progHdr elf k) := by
              rw [hwrites₂.pgdir]
              exact hseg
            rw [← hdir₂]
            exact hloads.kept htops hwrites₃
          · exact hsegs k hk
        · rintro _ s₃ ⟨hspace₃, hon₃⟩
          exact ⟨hspace₃, (hon.trans hwrites₂.toOn).trans hon₃⟩
      · rintro _ s₂ ⟨hspace₂, hon₂⟩
        exact ⟨hspace₂, hon.trans hon₂⟩
    · intro _ s₁ hwrote
      exact ⟨h.congr hwrote.free hwrote.ref hwrote.entry (by rw [hwrote.mm]), hwrote.on l m⟩

/-- The stack. -/
def stackArea : ℕ × ℕ × BitVec 32 := (ustackTop - ustackSize, ustackTop, vmRead ||| vmWrite ||| vmStack)

/-- The segments are in memory, and there is an area for the stack, without pages. -/
structure Layout.Prepared (l : Layout) (m : ℕ) (file : ExecFile) (elf : ElfHdr) (s s' : VmState) : Prop where
  space : l.Space s' m
  writes : l.Writes m (fun _ => False) s s'
  segments : ∀ phnum < elf.ePhnum, s'.Loads (s'.mm m).pgdir file (file.progHdr elf phnum)
  areas : ∀ w ∈ (s'.mm m).mmapList, w ∈ (s.mm m).mmapList ∨ w.area = stackArea ∨
    ∃ phnum < elf.ePhnum, (file.progHdr elf phnum).AreaIs w
  stack : ∃ v ∈ (s'.mm m).mmapList, v.area = stackArea
  absent : ∀ a, ustackTop - ustackSize ≤ a → a < ustackTop → (s'.pte (slotOf (s'.mm m).pgdir a)).present = false

theorem areaStart_stack : areaStart (ustackTop - ustackSize) = ustackTop - ustackSize := by
  decide

theorem areaEnd_stack : areaEnd (ustackTop - ustackSize) ustackSize = ustackTop := by
  decide

/-- **The areas of a program are there**, or the address space can be cleaned up. -/
theorem loadAreas_post (al : Allocs) (file : ExecFile) (htops : l.Tops) (h : l.Space s m) (hsound : file.Sound elf) :
    ((loadAreas al file m elf).run s).Post (fun _ s' => l.Prepared m file elf s s')
      (fun _ s' => l.Space s' m ∧ l.On m s s') fun _ => True := by
  unfold loadAreas
  have hsegments := loadSegments_post al file htops h fun k (hk : k ∈ List.range elf.ePhnum) => hsound k (List.mem_range.mp hk)
  refine Outcome.post_bind.mpr (hsegments.mono ?_ (fun _ _ hf => hf) fun _ _ => trivial)
  rintro _ s₁ ⟨hspace, hwrites, hareas, hsegs⟩
  refine (mmMap_post al hspace (ustackTop - ustackSize) ustackSize (vmRead ||| vmWrite ||| vmStack)).mono ?_ ?_ fun _ _ => trivial
  · rintro _ s' ⟨v, harea, hmapped⟩
    rw [areaStart_stack, areaEnd_stack] at harea
    have hnew : l.Writes m (fun _ => False) s₁ s' := hmapped.grows.writes hspace
    refine ⟨hmapped.space, hwrites.trans h.dir hnew, fun k hk => ?_, fun w hw => ?_,
      ⟨v, (hmapped.areas v).mpr (Or.inl rfl), harea⟩, fun a hle hlt => ?_⟩
    · have hloads := hsegs k (List.mem_range.mpr hk)
      rw [← hwrites.pgdir] at hloads
      rw [hnew.pgdir]
      exact hloads.kept htops hnew
    · rcases (hmapped.areas w).mp hw with rfl | hw
      · exact Or.inr (Or.inl harea)
      · rcases hareas w hw with hw | ⟨k, hk, hw⟩
        · exact Or.inl hw
        · exact Or.inr (Or.inr ⟨k, List.mem_range.mp hk, hw⟩)
    · have hstart : v.vmStart = ustackTop - ustackSize := congrArg Prod.fst harea
      have hstop : v.vmEnd = ustackTop := congrArg (fun a => a.2.1) harea
      refine hmapped.absent_at hspace.dir (Nat.lt_of_lt_of_le hlt htops.user) ⟨?_, ?_⟩
      · rwa [hstart]
      · rwa [hstop]
  · rintro _ s' ⟨hspace', hgrows⟩
    exact ⟨hspace', hwrites.toOn.trans hgrows.toOn⟩

/-! ### The stack -/

/-- The number of users does not matter. -/
theorem Layout.Space.counted (h : l.Space s m) (f : ℤ → ℤ) : l.Space (s.setMm m fun d => { d with mmCount := f d.mmCount }) m := by
  have hmm : (s.setMm m fun d => { d with mmCount := f d.mmCount }).mm m = { s.mm m with mmCount := f (s.mm m).mmCount } :=
    Function.update_self _ _ _
  refine ⟨⟨h.ok.congr rfl rfl rfl, ?_, ?_, ?_, ?_, ?_⟩, ?_, ?_, ?_⟩ <;> rw [hmm]
  · exact h.dir
  · exact h.areas
  · exact h.ranges
  · exact h.pages
  · exact h.tables
  · exact ⟨h.mm.areas, h.mm.count, h.mm.cache⟩
  · exact h.flags
  · exact h.refs

theorem Layout.Beside.counted (l : Layout) (m : ℕ) (s : VmState) (f : ℤ → ℤ) :
    l.Beside m s (s.setMm m fun d => { d with mmCount := f d.mmCount }) := by
  refine ⟨fun _ _ _ => rfl, fun _ _ _ _ => rfl, fun _ _ _ _ => rfl, fun _ h => h, fun _ _ => rfl,
    fun _ hm' => Function.update_of_ne hm' _ _, ?_, rfl, Nat.le_refl _⟩
  show (Function.update s.mm m _ m).pgdir = (s.mm m).pgdir
  rw [Function.update_self]

/-- An address of the stack area. -/
theorem has_stackArea (harea : v.area = stackArea) : v.Has a ↔ ustackTop - ustackSize ≤ a ∧ a < ustackTop := by
  have hstart : v.vmStart = ustackTop - ustackSize := congrArg Prod.fst harea
  have hstop : v.vmEnd = ustackTop := congrArg (fun a => a.2.1) harea
  unfold Vma.Has
  rw [hstart, hstop]

/-- The address of the `k`th page of the stack, from its top. -/
def stackPage (k : ℕ) : ℕ := ustackTop - k * pageSize

theorem stackPage_spec {k : ℕ} (hk : 1 ≤ k ∧ k ≤ 4) : stackPage k % pageSize = 0 ∧ ustackTop - ustackSize ≤ stackPage k ∧
    stackPage k < ustackTop ∧ stackPage k + k * pageSize = ustackTop := by
  unfold stackPage ustackTop ustackSize userTop pageSize
  omega

/-- **The pages at the top of the stack.** -/
theorem stackPages_post (al : Allocs) (htops : l.Tops) (h : l.Space s m) (hv : v ∈ (s.mm m).mmapList) (harea : v.area = stackArea)
    {ks : List ℕ} (hks : ∀ k ∈ ks, 1 ≤ k ∧ k ≤ 4) (hnodup : ks.Nodup)
    (habsent : ∀ k ∈ ks, (s.pte (slotOf (s.mm m).pgdir (stackPage k))).present = false) :
    ((stackPages al (s.mm m).pgdir ks).run s).Post (fun _ s' => l.Space s' m ∧ l.Grows m s s') (fun _ _ => False)
      fun _ => True := by
  obtain ⟨d, hd⟩ : ∃ d, (s.mm m).pgdir = d := ⟨_, rfl⟩
  have hdir : d ∈ l.dirs := hd ▸ h.dir
  rw [hd] at habsent ⊢
  induction ks generalizing s with
  | nil => exact ⟨h, .refl l m s⟩
  | cons k ks ih =>
    obtain ⟨hnot, hnodup'⟩ := List.nodup_cons.mp hnodup
    obtain ⟨halign, hlow, hhigh, hsum⟩ := stackPage_spec (hks k List.mem_cons_self)
    have hhas : v.Has (stackPage k) := (has_stackArea harea).mpr ⟨hlow, hhigh⟩
    have hx : slotOf d (stackPage k) ∈ l.slots := slotOf_mem_slots hdir (pdx_lt_top hhigh htops.user)
    unfold stackPages
    refine Outcome.post_bind.mpr ((pgdirAllocPage_post al h.ok hx pteUser).mono ?_ (fun _ _ hf => hf) fun _ hf => hf.elim)
    rintro r s₁ (⟨rfl, -⟩ | ⟨page, rfl, hadded⟩)
    · exact trivial
    · have hflags : pteP ||| pteUser = pteP ||| v.perm := by
        unfold Vma.perm
        rw [show v.vmFlags = vmRead ||| vmWrite ||| vmStack from congrArg (fun a => a.2.2) harea]
        decide
      have hpte := hadded.pte
      rw [← hd] at hadded
      obtain ⟨hspace, hgrows⟩ := h.added hv hhas halign hflags (by rw [hd]; exact habsent k List.mem_cons_self) hadded
      have hmm : s₁.mm = s.mm := hadded.frame.only.mm
      refine (ih hspace (by rwa [hmm]) (fun j hj => hks j (List.mem_cons_of_mem k hj)) hnodup' (fun j hj => ?_)
        (by rw [hmm, hd])).mono (fun _ s' h' => ⟨h'.1, hgrows.trans h'.2⟩) (fun _ _ hf => hf) fun _ hf => hf
      obtain ⟨halign', -, hhigh', hsum'⟩ := stackPage_spec (hks j (List.mem_cons_of_mem k hj))
      rw [hpte _ (slotOf_mem_slots hdir (pdx_lt_top hhigh' htops.user)), if_neg, habsent j (List.mem_cons_of_mem k hj)]
      intro heq
      have haddr := congrArg Slot.addr heq
      have hword : ∀ {a}, a < ustackTop → a < 2 ^ 32 := fun ha => Nat.lt_trans ha (by decide)
      rw [addr_slotOf halign' (hword hhigh'), addr_slotOf halign (hword hhigh)] at haddr
      have hsame : j = k := by
        rw [haddr] at hsum'
        unfold pageSize at hsum hsum'
        omega
      exact hnot (hsame ▸ hj)

/-! ### The arguments -/

/-- The kernel writes to a page that is at the address. -/
theorem pte_of_writable {page : ℕ} (h : s.writable d la = some page) : (s.pte (slotOf d la)).page = some page := by
  unfold VmState.writable at h
  dsimp only at h
  split_ifs at h with hand
  obtain ⟨hpde, -, hpte, -⟩ := hand
  have heq : s.pte (slotOf d la) = s.entry (s.entry d (pdx la)).ppn (ptx la) := pte_of_present hpde
  rw [heq, Pte.page_of_present hpte]
  exact h

theorem Layout.Space.stored (h : l.Space s m) (htops : l.Tops) (hla : la < userTop) {page : ℕ} (b : UInt8)
    (hpage : s.writable (s.mm m).pgdir la = some page) :
    l.Space (s.writeBytes page (la % pageSize) [b]) m ∧ l.Writes m (· = la) s (s.writeBytes page (la % pageSize) [b]) := by
  have hfloor : la / pageSize * pageSize + la % pageSize = la := Nat.div_add_mod' la pageSize
  have hmod : la % pageSize < pageSize := Nat.mod_lt la (Nat.succ_pos _)
  have htop : la / pageSize * pageSize + pageSize ≤ ptSize * l.top := by
    have huser := htops.user
    unfold userTop at hla huser
    unfold pageSize at *
    omega
  have hnamed := pte_of_writable hpage
  rw [← slotOf_floor] at hnamed
  have hx : slotOf (s.mm m).pgdir (la / pageSize * pageSize) ∈ l.slots := by
    rw [slotOf_floor]
    exact slotOf_mem_slots h.dir (pdx_lt_top hla htops.user)
  have hwrote : Wrote page (la % pageSize) [b] s (s.writeBytes page (la % pageSize) [b]) :=
    ⟨rfl, rfl, rfl, rfl, rfl, rfl, Nat.le_refl _⟩
  obtain ⟨hspace, hwrites, -⟩ := h.wrote hx (Nat.mul_mod_left _ _) hnamed hmod htop htops.lt_word hwrote
  refine ⟨hspace, hwrites.mono fun a hand => ?_⟩
  rw [hfloor] at hand
  exact Nat.le_antisymm (Nat.le_of_lt_succ hand.2) hand.1

/-- **A store** to a user address changes the byte there, or the kernel stops. -/
theorem storeByte_post (al : Allocs) (htops : l.Tops) (h : l.Space s m) (hla : la < userTop) (b : UInt8) :
    ((storeByte al m la b).run s).Post (fun _ s' => l.Space s' m ∧ l.Writes m (· = la) s s') (fun _ _ => False)
      fun _ => True := by
  unfold storeByte
  rw [Prog.run_bind, Prog.run_get, Outcome.andThen_ok]
  dsimp only
  cases hpage : s.writable (s.mm m).pgdir la with
  | some page => exact h.stored htops hla b hpage
  | none =>
    refine Outcome.post_bind.mpr (Outcome.post_attempt.mpr ((doPgfault_post al h htops.user _ la).mono ?_ ?_ fun _ _ => trivial))
    · rintro _ s₁ ⟨hspace, hgrows⟩
      show Outcome.Post _ _ _ (Prog.run (Prog.get >>= _) s₁)
      rw [Prog.run_bind, Prog.run_get, Outcome.andThen_ok]
      cases hpage' : s₁.writable (s.mm m).pgdir la with
      | none => exact trivial
      | some page =>
        obtain ⟨hspace', hwrites⟩ := hspace.stored htops hla b (by rwa [hgrows.pgdir])
        exact ⟨hspace', (hgrows.writes h).trans h.dir hwrites⟩
    · intro _ _ _
      exact trivial

theorem storeBytes_post (al : Allocs) (htops : l.Tops) (h : l.Space s m) {bytes : List UInt8} (hla : la + bytes.length ≤ userTop)
    (hW : ∀ a, la ≤ a → a < la + bytes.length → W a) :
    ((storeBytes al m la bytes).run s).Post (fun _ s' => l.Space s' m ∧ l.Writes m W s s') (fun _ _ => False) fun _ => True := by
  induction bytes generalizing s la with
  | nil => exact ⟨h, (Layout.Grows.refl l m s).writes h⟩
  | cons b bytes ih =>
    rw [List.length_cons] at hla hW
    unfold storeBytes
    refine (storeByte_post al htops h (by omega) b).bind ?_
    rintro _ s₁ ⟨hspace, hwrites⟩
    have hfirst : l.Writes m W s s₁ := hwrites.mono fun a ha => hW a (Nat.le_of_eq ha.symm) (by omega)
    refine (ih hspace (by omega) fun a hle hlt => hW a (by omega) (by omega)).mono ?_ (fun _ _ hf => hf) fun _ hf => hf
    rintro _ s' ⟨hspace', hrest⟩
    exact ⟨hspace', hfirst.trans h.dir hrest⟩

/-- What `do_execve` has checked of the arguments: there are at most `EXEC_MAX_ARG_NUM` of them, and none is too long. -/
structure ArgsOk (args : List (List UInt8)) : Prop where
  number : args.length ≤ 32
  len : ∀ arg ∈ args, arg.length ≤ execMaxArgLen

theorem strnlen_of_le {arg : List UInt8} (h : arg.length ≤ execMaxArgLen) : strnlen arg (execMaxArgLen + 1) = arg.length :=
  Nat.min_eq_left (Nat.le_succ_of_le h)

theorem argvSize_cons {arg : List UInt8} (args : List (List UInt8)) (h : arg.length ≤ execMaxArgLen) :
    argvSize (arg :: args) = arg.length + 1 + argvSize args := by
  unfold argvSize
  rw [List.map_cons, List.sum_cons, strnlen_of_le h]

theorem argvSize_le {args : List (List UInt8)} (hlen : ∀ arg ∈ args, arg.length ≤ execMaxArgLen) :
    argvSize args ≤ args.length * (execMaxArgLen + 1) := by
  induction args with
  | nil => exact Nat.zero_le _
  | cons arg args ih =>
    have harg := hlen arg List.mem_cons_self
    have hrest := ih fun arg' h' => hlen arg' (List.mem_cons_of_mem arg h')
    rw [argvSize_cons args harg, List.length_cons, Nat.succ_mul]
    omega

theorem storeArgs_post (al : Allocs) (htops : l.Tops) (h : l.Space s m) (low : ℕ) {args : List (List UInt8)} {dst uargv : ℕ}
    (hlen : ∀ arg ∈ args, arg.length ≤ execMaxArgLen) (hdst : low ≤ dst) (huargv : low ≤ uargv)
    (hend : dst + argvSize args ≤ userTop) (hend' : uargv + 4 * args.length ≤ userTop) :
    ((storeArgs al m dst uargv args).run s).Post
      (fun _ s' => l.Space s' m ∧ l.Writes m (fun a => low ≤ a ∧ a < userTop) s s') (fun _ _ => False) fun _ => True := by
  induction args generalizing s dst uargv with
  | nil => exact ⟨h, (Layout.Grows.refl l m s).writes h⟩
  | cons arg args ih =>
    have harg := hlen arg List.mem_cons_self
    rw [argvSize_cons args harg] at hend
    rw [List.length_cons] at hend'
    have hstring : (arg ++ [0]).length = arg.length + 1 := List.length_append
    have hword : (bytes32 dst).length = 4 := rfl
    unfold storeArgs
    refine (storeBytes_post (W := fun a => low ≤ a ∧ a < userTop) al htops h (by rw [hstring]; omega) fun a hle hlt => ⟨Nat.le_trans hdst hle, by omega⟩).bind ?_
    rintro _ s₁ ⟨hspace₁, hwrites₁⟩
    refine (storeBytes_post (W := fun a => low ≤ a ∧ a < userTop) al htops hspace₁ (by rw [hword]; omega) fun a hle hlt =>
      ⟨Nat.le_trans huargv hle, by omega⟩).bind ?_
    rintro _ s₂ ⟨hspace₂, hwrites₂⟩
    rw [strnlen_of_le harg]
    refine (ih hspace₂ (fun arg' h' => hlen arg' (List.mem_cons_of_mem arg h')) (by omega) (by omega) (by omega)
      (by omega)).mono ?_ (fun _ _ hf => hf) fun _ hf => hf
    rintro _ s' ⟨hspace', hwrites'⟩
    exact ⟨hspace', (hwrites₁.trans h.dir hwrites₂).trans h.dir hwrites'⟩

/-- The arguments are in the area of the stack. -/
theorem ArgsOk.stack {args : List (List UInt8)} (h : ArgsOk args) : ustackTop - ustackSize ≤ stackPointer args ∧
    stackPointer args + 4 + 4 * args.length + argvSize args ≤ userTop ∧
    argsTop args + argvSize args ≤ userTop ∧ stackPointer args + 4 ≤ argsTop args - args.length * 4 ∧
    argsTop args - args.length * 4 + 4 * args.length ≤ userTop := by
  have hsize := argvSize_le h.len
  have hnumber := h.number
  have hmul : args.length * (execMaxArgLen + 1) ≤ 32 * (execMaxArgLen + 1) := Nat.mul_le_mul_right _ hnumber
  unfold stackPointer argsTop ustackTop ustackSize
  unfold execMaxArgLen at hsize hmul
  unfold userTop pageSize
  omega

theorem storeArguments_post (al : Allocs) (htops : l.Tops) (h : l.Space s m) {args : List (List UInt8)} (hargs : ArgsOk args) :
    ((storeArguments al m args).run s).Post
      (fun _ s' => l.Space s' m ∧ l.Writes m (fun a => ustackTop - ustackSize ≤ a ∧ a < userTop) s s') (fun _ _ => False)
      fun _ => True := by
  obtain ⟨hlow, hsum, htop, hle, hend⟩ := hargs.stack
  have hword : (bytes32 args.length).length = 4 := rfl
  unfold storeArguments
  refine (storeArgs_post al htops h (ustackTop - ustackSize) hargs.len ?_ ?_ htop hend).bind ?_
  · omega
  · omega
  · rintro _ s₁ ⟨hspace₁, hwrites₁⟩
    refine (storeBytes_post (W := fun a => ustackTop - ustackSize ≤ a ∧ a < userTop) al htops hspace₁ (by rw [hword]; omega)
      fun a hle hlt => ⟨by omega, by omega⟩).mono ?_ (fun _ _ hf => hf) fun _ hf => hf
    rintro _ s' ⟨hspace', hwrites'⟩
    exact ⟨hspace', hwrites₁.trans h.dir hwrites'⟩

/-! ### The areas stay -/

/-- The areas of an address space are as before. -/
def SameAreas (m : ℕ) (s s' : VmState) : Prop := (s'.mm m).mmapList = (s.mm m).mmapList

instance : Std.Refl (SameAreas m) := ⟨fun _ => rfl⟩

instance : IsTrans VmState (SameAreas m) := ⟨fun _ _ _ h h' => h'.trans h⟩

theorem OnlyPages.sameAreas (h : OnlyPages s s') : SameAreas m s s' := by
  unfold SameAreas
  rw [h.mm]

theorem OnPages.sameAreas {α : Type} {x : VmProg α} (h : OnPages x) : Within (SameAreas m) (fun _ => True) x := fun s =>
  (h s).mono (fun _ _ h' => h'.sameAreas) (fun _ _ h' => h'.sameAreas) fun _ _ => trivial

theorem sameAreas_setMm (m : ℕ) {f : MmStruct → MmStruct} (h : ∀ d, (f d).mmapList = d.mmapList) (s : VmState) :
    SameAreas m s (s.setMm m f) := by
  show (Function.update s.mm m _ m).mmapList = _
  rw [Function.update_self, h]

theorem sameAreas_findVma (m addr : ℕ) : Within (SameAreas m) (fun _ => True) (findVma m addr) := by
  unfold findVma
  refine Within.bind Within.get fun s => Within.bind ?_ fun _ => Within.pure _
  split
  · exact Within.modify (sameAreas_setMm m fun _ => rfl)
  · exact Within.pure _

theorem sameAreas_doPgfault (al : Allocs) (m code addr : ℕ) : Within (SameAreas m) (fun _ => True) (doPgfault al m code addr) := by
  unfold doPgfault
  refine Within.bind (sameAreas_findVma m addr) fun r => ?_
  cases r with
  | none => exact Within.throw _
  | some vma =>
    refine Within.ite (Within.throw _) (Within.bind Within.get fun s => ?_)
    refine Within.bind (onPages_getPte al _ _ true).sameAreas fun r => ?_
    cases r with
    | none => exact Within.throw _
    | some table =>
      refine Within.bind Within.get fun s => Within.ite ?_ (Within.ite (Within.stop trivial) (Within.throw _))
      refine Within.bind (onPages_pgdirAllocPage al _ _ _).sameAreas fun r => ?_
      cases r with
      | none => exact Within.throw _
      | some page => exact Within.pure _

theorem sameAreas_storeByte (al : Allocs) (m la : ℕ) (b : UInt8) : Within (SameAreas m) (fun _ => True) (storeByte al m la b) := by
  unfold storeByte
  refine Within.bind Within.get fun s => ?_
  dsimp only
  split
  · exact Within.modify fun _ => rfl
  · refine Within.bind (Within.attempt (sameAreas_doPgfault al m _ la)) fun r => ?_
    cases r with
    | error e => exact Within.stop trivial
    | ok u =>
      refine Within.bind Within.get fun s => ?_
      split
      · exact Within.modify fun _ => rfl
      · exact Within.stop trivial

theorem sameAreas_storeBytes (al : Allocs) (m la : ℕ) (bytes : List UInt8) :
    Within (SameAreas m) (fun _ => True) (storeBytes al m la bytes) := by
  induction bytes generalizing la with
  | nil => exact Within.pure _
  | cons b bytes ih => exact Within.bind (sameAreas_storeByte al m la b) fun _ => ih _

theorem sameAreas_storeArgs (al : Allocs) (m dst uargv : ℕ) (args : List (List UInt8)) :
    Within (SameAreas m) (fun _ => True) (storeArgs al m dst uargv args) := by
  induction args generalizing dst uargv with
  | nil => exact Within.pure _
  | cons arg args ih =>
    exact Within.bind (sameAreas_storeBytes al m _ _) fun _ => Within.bind (sameAreas_storeBytes al m _ _) fun _ => ih _ _

theorem sameAreas_stackPages (al : Allocs) (m d : ℕ) (ks : List ℕ) :
    Within (SameAreas m) (fun _ => True) (stackPages al d ks) := by
  induction ks with
  | nil => exact Within.pure _
  | cons k ks ih =>
    unfold stackPages
    refine Within.bind (onPages_pgdirAllocPage al _ _ _).sameAreas fun r => ?_
    cases r with
    | none => exact Within.stop trivial
    | some page => exact ih

/-- The areas are all there before the stack has pages. -/
theorem sameAreas_finishLoad (al : Allocs) (m : ℕ) (elf : ElfHdr) (args : List (List UInt8)) :
    Within (SameAreas m) (fun _ => True) (finishLoad al m elf args) := by
  unfold finishLoad
  refine Within.bind Within.get fun s => Within.bind (sameAreas_stackPages al m _ _) fun _ => ?_
  refine Within.bind (Within.modify (sameAreas_setMm m fun _ => rfl)) fun _ => Within.bind ?_ fun _ => Within.pure _
  exact Within.bind (sameAreas_storeArgs al m _ _ _) fun _ => sameAreas_storeBytes al m _ _

/-! ### All of it -/

/-- The address space of a program is ready. -/
structure Layout.Finished (l : Layout) (m : ℕ) (file : ExecFile) (elf : ElfHdr) (s s' : VmState) : Prop where
  space : l.Space s' m
  beside : l.Beside m s s'
  segments : ∀ phnum < elf.ePhnum, s'.Loads (s'.mm m).pgdir file (file.progHdr elf phnum)

/-- **The stack is there, and the arguments are in it.** -/
theorem finishLoad_post (al : Allocs) (htops : l.Tops) (h : l.Prepared m file elf s₀ s) {args : List (List UInt8)}
    (hargs : ArgsOk args) : ((finishLoad al m elf args).run s).Post
      (fun r s' => r.mm = m ∧ l.Finished m file elf s s') (fun _ _ => False) fun _ => True := by
  obtain ⟨v, hv, harea⟩ := h.stack
  unfold finishLoad
  rw [Prog.run_bind, Prog.run_get, Outcome.andThen_ok]
  have hks : ∀ k ∈ [1, 2, 3, 4], 1 ≤ k ∧ k ≤ 4 := by decide
  refine (stackPages_post al htops h.space hv harea hks (by decide) fun k hk => ?_).bind ?_
  · obtain ⟨-, hlow, hhigh, -⟩ := stackPage_spec (hks k hk)
    exact h.absent _ hlow hhigh
  · rintro _ s₁ ⟨hspace₁, hgrows₁⟩
    have hwrites₁ : l.Writes m (fun _ => False) s s₁ := hgrows₁.writes h.space
    obtain ⟨s₂, hs₂⟩ : ∃ s₂, s₂ = s₁.setMm m fun d => { d with mmCount := d.mmCount + 1 } := ⟨_, rfl⟩
    have hspace₂ : l.Space s₂ m := hs₂ ▸ hspace₁.counted (· + 1)
    have hbeside₂ : l.Beside m s₁ s₂ := hs₂ ▸ .counted l m s₁ (· + 1)
    show Outcome.Post _ _ _ (Prog.run (mmCountInc m >>= _) s₁)
    rw [Prog.run_bind]
    show Outcome.Post _ _ _ (Prog.run (storeArguments al m args >>= _) (s₁.setMm m fun d => { d with mmCount := d.mmCount + 1 }))
    rw [← hs₂]
    refine (storeArguments_post al htops hspace₂ hargs).bind ?_
    rintro _ s₃ ⟨hspace₃, hwrites₃⟩
    refine ⟨rfl, hspace₃, (hgrows₁.toBeside.trans hbeside₂).trans hwrites₃.toBeside, fun k hk htype hzero => ?_⟩
    have hseg : s.HasSegment (s.mm m).pgdir file (file.progHdr elf k) := h.segments k hk htype hzero
    -- The segment is nowhere in the stack, as no page was there.
    have hnot : ∀ i < (file.progHdr elf k).pMemsz, ¬ (ustackTop - ustackSize ≤ (file.progHdr elf k).pVa + i ∧
        (file.progHdr elf k).pVa + i < userTop) := by
      rintro i hi ⟨hle, hlt⟩
      obtain ⟨b, hb, -⟩ := hseg.bytes i hi
      have hpresent : (s.pte (slotOf (s.mm m).pgdir ((file.progHdr elf k).pVa + i))).present = true := by
        rw [← isSome_byteAt, hb]
        rfl
      rw [h.absent _ hle hlt] at hpresent
      cases hpresent
    have hseg₁ : s₁.HasSegment (s₁.mm m).pgdir file (file.progHdr elf k) := by
      rw [hgrows₁.pgdir]
      exact hseg.kept htops hwrites₁ fun _ _ hf => hf
    have hseg₂ : s₂.HasSegment (s₂.mm m).pgdir file (file.progHdr elf k) := by
      rw [hbeside₂.pgdir, hs₂]
      exact ⟨hseg₁.le, hseg₁.bytes⟩
    rw [hwrites₃.pgdir]
    exact hseg₂.kept htops hwrites₃ hnot

end Ucore.Vm
