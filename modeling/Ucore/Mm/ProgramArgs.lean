import Ucore.Mm.PrivatePages
import Ucore.Mm.ProgramBytes
import Ucore.Mm.UserMemory
import Mathlib.Tactic.Common

/-!
# The arguments of a program

The way of the arguments from one program to the next: `copy_kargv` and `load_icode` of `kern/process/proc.c`, and the entry
code of `user/libs/initcode.S`.

* `copyKargv` copies the strings to buffers of the kernel. `copyKargv_post`: they are strings of at most `EXEC_MAX_ARG_LEN`
  characters.
* `HoldsArgs` is what `storeArgs` leaves, argument by argument (`storeArgs_holds`), as each page is at one address only.
* `start` and `mainArgs` are the entry code and the reads of `main` through `argv`.
* `program_arguments_round_trip`: `main` finds the strings that were there at the call, in places of the stack that are apart
  from each other.
-/

namespace Ucore.Vm

open Ucore.Lib

/-! ### The code -/

/-- A word in memory. -/
def wordAt (mem : ℕ → UInt8) (a : ℕ) : ℕ := le32 [mem a, mem (a + 1), mem (a + 2), mem (a + 3)] 0

/-- The string in memory, as far as it is in `n` bytes. -/
def stringAt (mem : ℕ → UInt8) (src n : ℕ) : List UInt8 := (List.range (strnlenAt mem src n)).map fun i => mem (src + i)

/-- `EXEC_MAX_ARG_NUM` -/
def execMaxArgNum : ℕ := 32

/-- A buffer of the kernel: its address, and what is in it. -/
abbrev Kbuf : Type := ℕ × (ℕ → UInt8)

/-- The buffers are freed from the last one on; the last one is at the head. Source: `kern/process/proc.c` `put_kargv` -/
def putKargv : List Kbuf → VmProg Unit
  | [] => pure ()
  | buf :: kargv => do
    kfree buf.1
    putKargv kargv

section copy

variable (al : Allocs) (mm : Option ℕ) (mem : ℕ → UInt8) (junk : ℕ → ℕ → UInt8)

/-- The loop of `copy_kargv`, where `n` arguments are left from `i` on. `junk` is what a new buffer holds. -/
def kargvLoop (argv : ℕ) : ℕ → ℕ → List Kbuf → VmProg (List Kbuf)
  | 0, _, kargv => pure kargv.reverse
  | n + 1, i, kargv => do
    match ← kmalloc al with
    | none => do
      putKargv kargv
      Prog.throw .noMem
    | some buffer => do
      let (done, dst) ← copyString mm mem (junk buffer) (wordAt mem (add32 argv (4 * i))) (execMaxArgLen + 1)
      if done then
        kargvLoop argv n (i + 1) ((buffer, dst) :: kargv)
      else do
        kfree buffer
        putKargv kargv
        Prog.throw .inval

/-- Source: `kern/process/proc.c` `copy_kargv` -/
def copyKargv (argc argv : ℕ) : VmProg (List Kbuf) := do
  if ¬ (← userMemCheck mm argv (4 * argc) false) then Prog.throw .inval
  else kargvLoop al mm mem junk argv argc 0 []

end copy

/-- What user code gets from an address, when no page fault is raised. -/
def VmState.userLoad (s : VmState) (d a : ℕ) : Option UInt8 :=
  if s.faultCode d a false true = none then s.byteAt d a else none

section user

variable (load : ℕ → Option UInt8)

/-- A word that user code loads. -/
def loadWord (a : ℕ) : Option ℕ := do
  let b₀ ← load a
  let b₁ ← load (a + 1)
  let b₂ ← load (a + 2)
  let b₃ ← load (a + 3)
  pure (le32 [b₀, b₁, b₂, b₃] 0)

/-- A string that user code loads, with its end within `n` bytes. -/
def loadString : ℕ → ℕ → Option (List UInt8)
  | 0, _ => none
  | n + 1, a => do
    let b ← load a
    if b = 0 then
      pure []
    else do
      let l ← loadString n (a + 1)
      pure (b :: l)

/-- `argc` and `argv`, with which `umain` and `main` are called. Source: `user/libs/initcode.S` `_start` -/
def start (esp : ℕ) : Option (ℕ × ℕ) := do
  let argc ← loadWord load esp
  pure (argc, esp + 4)

/-- The strings that `main` finds. -/
def mainArgs : ℕ → ℕ → Option (List (List UInt8))
  | 0, _ => pure []
  | argc + 1, argv => do
    let p ← loadWord load argv
    let arg ← loadString load (execMaxArgLen + 1) p
    let args ← mainArgs argc (argv + 4)
    pure (arg :: args)

end user

variable {s s₁ s' : VmState} {m d la a dst uargv n k page maxn off src : ℕ} {l : Layout} {W : ℕ → Prop} {bytes arg : List UInt8}
  {args : List (List UInt8)} {load load' : ℕ → Option UInt8} {mm : Option ℕ} {mem : ℕ → UInt8}

/-! ### Bytes in memory -/

/-- The bytes are at the address. -/
def HasBytes (load : ℕ → Option UInt8) (a : ℕ) (bytes : List UInt8) : Prop :=
  ∀ i < bytes.length, load (a + i) = some (bytes.getD i 0)

theorem HasBytes.nil : HasBytes load a [] := fun _ hi => (Nat.not_lt_zero _ hi).elim

theorem HasBytes.cons {b : UInt8} (hb : load a = some b) (h : HasBytes load (a + 1) bytes) : HasBytes load a (b :: bytes) := by
  intro i hi
  cases i with
  | zero => exact hb
  | succ i =>
    have hbyte := h i (Nat.lt_of_succ_lt_succ hi)
    rw [Nat.add_assoc, Nat.add_comm 1 i] at hbyte
    exact hbyte

theorem HasBytes.head {b : UInt8} (h : HasBytes load a (b :: bytes)) : load a = some b := h 0 (Nat.succ_pos _)

theorem HasBytes.tail {b : UInt8} (h : HasBytes load a (b :: bytes)) : HasBytes load (a + 1) bytes := by
  intro i hi
  have hbyte := h (i + 1) (Nat.succ_lt_succ hi)
  rw [Nat.add_assoc, Nat.add_comm 1 i]
  exact hbyte

theorem HasBytes.congr (h : HasBytes load a bytes) (hload : ∀ c, a ≤ c → c < a + bytes.length → ∀ b, load c = some b → load' c = some b) :
    HasBytes load' a bytes := fun i hi => hload _ (Nat.le_add_right _ _) (Nat.add_lt_add_left hi _) _ (h i hi)

/-- The bytes of a word give it back. -/
theorem loadWord_of_hasBytes (h : HasBytes load a (bytes32 n)) (hn : n < 2 ^ 32) : loadWord load a = some n := by
  have hword : le32 (bytes32 n) 0 = n := by
    unfold le32 bytes32
    simp only [List.getD_cons_zero, List.getD_cons_succ, UInt8.toNat_ofNat']
    omega
  unfold loadWord
  rw [h.head, h.tail.head, h.tail.tail.head, h.tail.tail.tail.head]
  exact congrArg some hword

/-- The bytes of a string with its end give it back. -/
theorem loadString_of_hasBytes (h : HasBytes load a (arg ++ [0])) (harg : 0 ∉ arg) (hn : arg.length < n) :
    loadString load n a = some arg := by
  induction arg generalizing a n with
  | nil =>
    obtain ⟨n, rfl⟩ := Nat.exists_eq_succ_of_ne_zero (Nat.ne_of_gt hn)
    unfold loadString
    rw [h.head]
    rfl
  | cons b arg ih =>
    obtain ⟨n, rfl⟩ := Nat.exists_eq_succ_of_ne_zero (Nat.ne_of_gt (Nat.lt_of_le_of_lt (Nat.zero_le _) hn))
    obtain ⟨hb, harg⟩ := not_or.mp (List.mem_cons.not.mp harg)
    have hrest := ih (HasBytes.tail h) harg (Nat.lt_of_succ_lt_succ hn)
    unfold loadString
    rw [HasBytes.head h]
    show (if b = 0 then _ else _) = _
    rw [if_neg fun heq => hb heq.symm, hrest]
    rfl

/-! ### Stores -/

/-- A store to the page of an address changes the byte at this address only. -/
theorem Layout.Private.store (h : l.Private m d s) (hla : la < kernBase) (b : UInt8) (hpage : s.writable d la = some page) :
    l.Private m d (s.writeBytes page (la % pageSize) [b]) ∧
      VmState.BytesStay d (· = la) s (s.writeBytes page (la % pageSize) [b]) ∧
      (s.writeBytes page (la % pageSize) [b]).byteAt d la = some b := by
  obtain ⟨hpresent, hppn⟩ := Pte.page_eq_some.mp (pte_of_writable hpage)
  have hpte : ∀ x, (s.writeBytes page (la % pageSize) [b]).pte x = s.pte x := fun _ => rfl
  refine ⟨h.writeBytes _ _ _, fun a ha hne c hc => ?_, ?_⟩
  · have hpa : (s.pte (slotOf d a)).present = true := by
      rw [← isSome_byteAt, hc]
      rfl
    rw [byteAt_of_present hpa] at hc
    rw [byteAt_of_present (by rwa [hpte]), hpte]
    by_cases hsame : (s.pte (slotOf d a)).ppn = page
    · -- it is the same page, and so the same slot
      have hslot : slotOf d a = slotOf d la := h.alone _ (h.slot_mem hla) rfl _ (h.slot_mem ha) page (pte_of_writable hpage)
        (Pte.page_eq_some.mpr ⟨hpa, hsame⟩)
      have hfloor : pageSize * (a / pageSize) = pageSize * (la / pageSize) := by
        rw [← addr_slotOf_floor (d := d) (Nat.lt_trans ha (by decide)), hslot, addr_slotOf_floor (Nat.lt_trans hla (by decide))]
      rw [hsame] at hc ⊢
      rw [byte_writeBytes_self, if_neg, hc]
      rintro ⟨hle, hlt⟩
      apply hne
      rw [List.length_singleton] at hlt
      unfold pageSize at *
      omega
    · rw [byte_writeBytes_of_ne hsame, hc]
  · rw [byteAt_of_present (by rwa [hpte]), hpte, hppn, byte_writeBytes_self, if_pos ⟨Nat.le_refl _, Nat.lt_succ_self _⟩, Nat.sub_self]
    rfl

/-- **A store** to a user address, with the page fault that it may raise. -/
theorem storeByte_holds (al : Allocs) (h : l.Private m d s) (hla : la < kernBase) (b : UInt8) :
    ((storeByte al m la b).run s).Post
      (fun _ s' => l.Private m d s' ∧ VmState.BytesStay d (· = la) s s' ∧ s'.byteAt d la = some b) (fun _ _ => False)
      fun _ => True := by
  unfold storeByte
  rw [Prog.run_bind, Prog.run_get, Outcome.andThen_ok]
  dsimp only
  rw [h.pgdir]
  cases hpage : s.writable d la with
  | some page => exact h.store hla b hpage
  | none =>
    have hfault := stores_doPgfault (W := (· = la)) (l := l) (d := d) (m := m) al (2 + s.faultPresent d la) la s
    refine Outcome.post_bind.mpr (Outcome.post_attempt.mpr (hfault.mono ?_ (fun _ _ _ => trivial) fun _ _ => trivial))
    intro _ s₁ hstores
    obtain ⟨h₁, hstay⟩ := hstores h
    show Outcome.Post _ _ _ (Prog.run (Prog.get >>= _) s₁)
    rw [Prog.run_bind, Prog.run_get, Outcome.andThen_ok]
    cases hpage' : s₁.writable d la with
    | none => exact trivial
    | some page =>
      obtain ⟨h₂, hstay', hbyte⟩ := h₁.store hla b hpage'
      exact ⟨h₂, hstay.trans hstay', hbyte⟩

theorem storeBytes_holds (al : Allocs) (h : l.Private m d s) (hla : la + bytes.length ≤ kernBase) :
    ((storeBytes al m la bytes).run s).Post
      (fun _ s' => l.Private m d s' ∧ VmState.BytesStay d (fun a => la ≤ a ∧ a < la + bytes.length) s s' ∧
        HasBytes (s'.byteAt d) la bytes) (fun _ _ => False) fun _ => True := by
  induction bytes generalizing s la with
  | nil => exact ⟨h, fun _ _ _ _ hb => hb, .nil⟩
  | cons b bytes ih =>
    rw [List.length_cons] at hla
    unfold storeBytes
    apply (storeByte_holds al h (by omega) b).bind
    rintro _ s₁ ⟨h₁, hstay₁, hbyte⟩
    refine (ih h₁ (by omega)).mono ?_ (fun _ _ hf => hf) fun _ _ => trivial
    rintro _ s' ⟨h', hstay', hbytes⟩
    refine ⟨h', ?_, .cons (hstay' la (by omega) (by omega) b hbyte) hbytes⟩
    rw [List.length_cons]
    exact (hstay₁.mono fun a ha => by omega).trans (hstay'.mono fun a ha => by omega)

/-- Bytes stay where nothing is written. -/
theorem HasBytes.stay (h : HasBytes (s.byteAt d) a bytes) (hstay : VmState.BytesStay d W s s') (ha : a + bytes.length ≤ kernBase)
    (hnot : ∀ c, a ≤ c → c < a + bytes.length → ¬ W c) : HasBytes (s'.byteAt d) a bytes :=
  h.congr fun c hle hlt b hb => hstay c (Nat.lt_of_lt_of_le hlt ha) (hnot c hle hlt) b hb

/-! ### The strings and their addresses -/

/-- The strings stand one behind the other from `dst` on, and their addresses from `uargv` on. -/
def HoldsArgs (load : ℕ → Option UInt8) : ℕ → ℕ → List (List UInt8) → Prop
  | _, _, [] => True
  | dst, uargv, arg :: args => HasBytes load dst (arg ++ [0]) ∧ HasBytes load uargv (bytes32 dst) ∧
      HoldsArgs load (dst + (arg.length + 1)) (uargv + 4) args

theorem HoldsArgs.congr (h : HoldsArgs load dst uargv args) (hlen : ∀ arg ∈ args, arg.length ≤ execMaxArgLen)
    (hload : ∀ c, dst ≤ c ∧ c < dst + argvSize args ∨ uargv ≤ c ∧ c < uargv + 4 * args.length → ∀ b, load c = some b → load' c = some b) :
    HoldsArgs load' dst uargv args := by
  induction args generalizing dst uargv with
  | nil => exact trivial
  | cons arg args ih =>
    obtain ⟨hstring, hword, hrest⟩ := h
    rw [argvSize_cons args (hlen arg List.mem_cons_self), List.length_cons] at hload
    refine ⟨hstring.congr fun c hle hlt => hload c ?_, hword.congr fun c hle hlt => hload c ?_,
      ih hrest (fun arg' h' => hlen arg' (List.mem_cons_of_mem arg h')) fun c hc => hload c (by omega)⟩
    · rw [List.length_append, List.length_singleton] at hlt
      omega
    · rw [show (bytes32 dst).length = 4 from rfl] at hlt
      omega

/-- **The loop over the arguments** leaves them all, when their addresses are below the strings. -/
theorem storeArgs_holds (al : Allocs) (h : l.Private m d s) (hlen : ∀ arg ∈ args, arg.length ≤ execMaxArgLen)
    (hbelow : uargv + 4 * args.length ≤ dst) (hend : dst + argvSize args ≤ kernBase) :
    ((storeArgs al m dst uargv args).run s).Post
      (fun _ s' => l.Private m d s' ∧
        VmState.BytesStay d (fun a => dst ≤ a ∧ a < dst + argvSize args ∨ uargv ≤ a ∧ a < uargv + 4 * args.length) s s' ∧
        HoldsArgs (s'.byteAt d) dst uargv args) (fun _ _ => False) fun _ => True := by
  induction args generalizing s dst uargv with
  | nil => exact ⟨h, fun _ _ _ _ hb => hb, trivial⟩
  | cons arg args ih =>
    have harg := hlen arg List.mem_cons_self
    rw [argvSize_cons args harg] at hend ⊢
    rw [List.length_cons] at hbelow ⊢
    have hstring : (arg ++ [0]).length = arg.length + 1 := List.length_append
    have hword : (bytes32 dst).length = 4 := rfl
    unfold storeArgs
    rw [strnlen_of_le harg]
    apply (storeBytes_holds al h (by omega)).bind
    rintro _ s₁ ⟨h₁, hstay₁, hbytes₁⟩
    apply (storeBytes_holds al h₁ (by omega)).bind
    rintro _ s₂ ⟨h₂, hstay₂, hbytes₂⟩
    refine (ih h₂ (fun arg' h' => hlen arg' (List.mem_cons_of_mem arg h')) (by omega) (by omega)).mono ?_ (fun _ _ hf => hf)
      fun _ _ => trivial
    rintro _ s' ⟨h', hstay', hholds⟩
    rw [hstring] at hstay₁
    rw [hword] at hstay₂
    refine ⟨h', ?_, ?_, ?_, hholds⟩
    · exact ((hstay₁.mono fun a ha => by omega).trans (hstay₂.mono fun a ha => by omega)).trans (hstay'.mono fun a ha => by omega)
    · refine (hbytes₁.stay hstay₂ (by omega) fun c hle hlt => ?_).stay hstay' (by omega) fun c hle hlt => ?_
      · omega
      · omega
    · refine hbytes₂.stay hstay' (by omega) fun c hle hlt => ?_
      omega

/-! ### The end of `load_icode` -/

theorem keeps_stackPages (al : Allocs) (ks : List ℕ) : l.Keeps m d (stackPages al d ks) := by
  have huser : ∀ page, (⟨page, pteP ||| pteUser⟩ : Pte).user = true := fun page => by
    show (pteP ||| pteUser).getLsbD 2 = true
    decide
  induction ks with
  | nil => exact Within.pure _
  | cons k ks ih =>
    unfold stackPages
    refine Within.bind (keeps_pgdirAllocPage al (Nat.lt_of_le_of_lt (Nat.sub_le _ _) (by decide)) huser) fun r => ?_
    cases r with
    | none => exact Within.stop trivial
    | some page => exact ih

theorem keeps_mmCountInc (m : ℕ) : l.Keeps m d (mmCountInc m) := by
  refine Within.modify fun s hs => ⟨?_, fun _ _ hnot => (hnot trivial).elim⟩
  have hself : (s.setMm m fun d => { d with mmCount := d.mmCount + 1 }).mm m = { s.mm m with mmCount := (s.mm m).mmCount + 1 } :=
    Function.update_self _ _ _
  refine hs.sameEntries rfl rfl rfl ?_ ?_ ?_ <;> rw [hself]
  · exact ⟨hs.mm.areas, hs.mm.count, hs.mm.cache⟩
  · exact hs.ends

/-- The words are right below the strings. -/
theorem ArgsOk.words (h : ArgsOk args) : argsTop args - args.length * 4 = stackPointer args + 4 ∧
    stackPointer args + 4 + 4 * args.length ≤ argsTop args := by
  have hsize := argvSize_le h.len
  have hnumber := h.number
  have hmul : args.length * (execMaxArgLen + 1) ≤ 32 * (execMaxArgLen + 1) := Nat.mul_le_mul_right _ hnumber
  unfold stackPointer argsTop ustackTop userTop
  unfold execMaxArgLen at hsize hmul
  omega

/-- **The arguments are on the stack** when `load_icode` returns, and the pages are apart. -/
theorem finishLoad_holds (al : Allocs) (h : l.Private m d s) (elf : ElfHdr) (hargs : ArgsOk args) :
    ((finishLoad al m elf args).run s).Post
      (fun r s' => r.mm = m ∧ r.stack = stackPointer args ∧ l.Private m d s' ∧
        HasBytes (s'.byteAt d) (stackPointer args) (bytes32 args.length) ∧
        HoldsArgs (s'.byteAt d) (argsTop args) (stackPointer args + 4) args)
      (fun _ _ => True) fun _ => True := by
  obtain ⟨hwords, hbelow⟩ := hargs.words
  obtain ⟨-, -, htop, -, -⟩ := hargs.stack
  have hkern : userTop ≤ kernBase := by decide
  have hlen : (bytes32 args.length).length = 4 := rfl
  unfold finishLoad
  rw [Prog.run_bind, Prog.run_get, Outcome.andThen_ok, h.pgdir]
  have hpages : l.Keeps m d (stackPages al d [1, 2, 3, 4]) := keeps_stackPages al _
  have hcount : l.Keeps m d (mmCountInc m) := keeps_mmCountInc m
  refine Within.post_bind hpages (fun _ s₁ h₁ => ?_) (fun _ _ _ => trivial) fun _ _ => trivial
  refine Within.post_bind hcount (fun _ s₂ h₂ => ?_) (fun _ _ _ => trivial) fun _ _ => trivial
  have hs₂ : l.Private m d s₂ := (h₂ (h₁ h).1).1
  unfold storeArguments
  rw [hwords]
  refine Outcome.post_bind.mpr (Outcome.post_bind.mpr ?_)
  refine (storeArgs_holds al hs₂ hargs.len hbelow (Nat.le_trans htop hkern)).mono ?_ (fun _ _ _ => trivial) fun _ _ => trivial
  rintro _ s₃ ⟨hs₃, -, hholds⟩
  refine (storeBytes_holds al hs₃ (by omega)).mono ?_ (fun _ _ _ => trivial) fun _ _ => trivial
  rintro _ s' ⟨hs', hstay, hnumber⟩
  refine ⟨rfl, rfl, hs', hnumber, hholds.congr hargs.len fun c hc b hb => hstay c ?_ ?_ b hb⟩
  · omega
  · rw [hlen]
    omega

/-- There is an area for the stack when the areas are there. -/
theorem loadAreas_stack (al : Allocs) (file : ExecFile) (elf : ElfHdr) : ((loadAreas al file m elf).run s).Post
    (fun _ s' => ∃ v ∈ (s'.mm m).mmapList, v.area = stackArea) (fun _ _ => True) fun _ => True := by
  unfold loadAreas
  rw [Outcome.post_bind]
  cases (loadSegments al file m elf (List.range elf.ePhnum)).run s with
  | error e s₁ => exact trivial
  | panic p => exact trivial
  | ok u s₁ =>
    show Outcome.Post _ _ _ (Prog.run (mmMap al m (ustackTop - ustackSize) ustackSize _) s₁)
    cases hrun : (mmMap al m (ustackTop - ustackSize) ustackSize (vmRead ||| vmWrite ||| vmStack)).run s₁ with
    | error e s' => exact trivial
    | panic p => exact trivial
    | ok u s' =>
      obtain ⟨-, v, harea, hlist⟩ := mmMap_adds al hrun
      rw [areaStart_stack, areaEnd_stack] at harea
      refine ⟨v, ?_, harea⟩
      rw [hlist]
      exact (placeArea_perm _ _).mem_iff.mpr List.mem_cons_self

/-- An error is returned in the end. -/
theorem post_throw_after {α β : Type} {x : VmProg α} {e : VmError} {Q : β → VmState → Prop} :
    ((x >>= fun _ => Prog.throw e : VmProg β).run s).Post Q (fun _ _ => True) fun _ => True := by
  rw [Outcome.post_bind]
  cases x.run s <;> exact trivial

/-- An address space without areas and pages. -/
theorem Layout.Machine.private {live : List ℕ} (h : l.Machine live s) (hm : m ∈ live) (hempty : (s.mm m).mmapList = []) :
    l.Private m (s.mm m).pgdir s := by
  have hspace := h.spaces m hm
  have hnone : ∀ x ∈ l.slots, x.dir = (s.mm m).pgdir → (s.pte x).present = false := fun x hx hxd => by
    refine Bool.eq_false_iff.mpr fun hpresent => ?_
    obtain ⟨v, hv, -⟩ := hspace.pages x hx hxd hpresent
    rw [hempty] at hv
    cases hv
  refine ⟨h.ok, h.top, hspace.dir, rfl, hspace.mm, fun v hv => ?_, fun x hx hxd hpresent => ?_, fun x hx hxd y hy p hxp hyp => ?_⟩
  · rw [hempty] at hv
    cases hv
  · rw [hnone x hx hxd] at hpresent
    cases hpresent
  · rw [Pte.page_eq_none.mpr (hnone x hx hxd)] at hxp
    cases hxp

/-- **`load_icode`**, for any file. -/
theorem loadIcode_holds (al : Allocs) (h : l.Machine [] s) (file : ExecFile) (hargs : ArgsOk args) :
    ((loadIcode al file args).run s).Post
      (fun r s' => r.stack = stackPointer args ∧ (∃ v ∈ (s'.mm r.mm).mmapList, v.area = stackArea) ∧
        ∃ l' : Layout, l'.Private r.mm (s'.mm r.mm).pgdir s' ∧
          HasBytes (s'.byteAt (s'.mm r.mm).pgdir) (stackPointer args) (bytes32 args.length) ∧
          HoldsArgs (s'.byteAt (s'.mm r.mm).pgdir) (argsTop args) (stackPointer args + 4) args)
      (fun _ _ => True) fun _ => True := by
  unfold loadIcode
  refine Outcome.post_bind.mpr ((mmCreate_machine al h).mono ?_ (fun _ _ _ => trivial) fun _ _ => trivial)
  rintro r s₁ ⟨hmachine, hnew⟩
  cases r with
  | none => exact trivial
  | some m =>
    refine Outcome.post_bind.mpr (Outcome.post_attempt.mpr ((setupPgdir_machine al hmachine (hnew m rfl)).mono ?_ ?_ fun _ _ => trivial))
    · rintro _ s₂ ⟨l₂, hmachine₂, hnew₂, -, -⟩
      have hs₂ := hmachine₂.private List.mem_cons_self hnew₂.1
      obtain ⟨d, hd⟩ : ∃ d, (s₂.mm m).pgdir = d := ⟨_, rfl⟩
      rw [hd] at hs₂
      refine Outcome.post_bind.mpr (Outcome.post_attempt.mpr ((readElfHdr_post al file).mono ?_ ?_ fun _ _ => trivial))
      · rintro elf s₃ ⟨-, hwrote⟩
        have hs₃ : l₂.Private m d s₃ := by
          refine hs₂.sameEntries hwrote.free hwrote.ref hwrote.entry ?_ ?_ ?_ <;> rw [hwrote.mm]
          · exact hs₂.mm
          · exact hs₂.ends
        have hkeeps : l₂.Keeps m d (loadAreas al file m elf) := keeps_loadAreas al file elf
        refine Outcome.post_bind.mpr (Outcome.post_attempt.mpr
          (((hkeeps s₃).and (loadAreas_stack al file elf)).mono ?_ ?_ fun _ _ => trivial))
        · rintro _ s₄ ⟨hstores, hstack⟩
          refine ((finishLoad_holds al (hstores hs₃).1 elf hargs).and (sameAreas_finishLoad al m elf args s₄)).mono ?_
            (fun _ _ _ => trivial) fun _ _ => trivial
          rintro r s' ⟨⟨rfl, hstack', hs', hnumber, hholds⟩, hareas⟩
          rw [hs'.pgdir]
          have hsame : (s'.mm r.mm).mmapList = (s₄.mm r.mm).mmapList := hareas
          exact ⟨hstack', by rwa [hsame], l₂, hs', hnumber, hholds⟩
        · exact fun _ _ _ => post_throw_after
      · rintro e s₃ -
        show Outcome.Post _ _ _ (Prog.run (putPgdir m >>= fun _ => mmDestroy m >>= fun _ => Prog.throw e) s₃)
        rw [← Prog.bind_assoc]
        exact post_throw_after
    · exact fun _ _ _ => post_throw_after

/-! ### `copy_kargv` -/

/-- A range that may be accessed is not empty, and does not go beyond the last address. -/
theorem userMemCheck_range (mm : Option ℕ) (hla : la < 2 ^ 32) (hn : n < 2 ^ 32) (write : Bool) :
    ((userMemCheck mm la n write).run s).Post (fun b _ => b = true → 0 < n ∧ la + n < 2 ^ 32) (fun _ _ => True) fun _ => True := by
  have hsum : la < add32 la n → 0 < n ∧ la + n < 2 ^ 32 := by
    unfold add32
    omega
  unfold userMemCheck
  cases mm with
  | none => exact fun hb => hsum (of_decide_eq_true hb).2.1
  | some m =>
    dsimp only
    by_cases haccess : UserAccess la (add32 la n)
    · rw [if_neg (not_not.mpr haccess)]
      cases (userMemLoop m write (add32 la n) (add32 la n + 1) la).run s with
      | ok b s' => exact fun _ => hsum haccess.2.1
      | error e s' => exact trivial
      | panic p => exact trivial
    · rw [if_pos haccess]
      exact fun hb => absurd hb Bool.false_ne_true

/-- The string ends at `k`. -/
def EndsAt (mem : ℕ → UInt8) (src k : ℕ) : Prop := (∀ i < k, mem (src + i) ≠ 0) ∧ mem (src + k) = 0

theorem EndsAt.strnlenAt_eq (h : EndsAt mem src k) (hk : k < n) : strnlenAt mem src n = k := by
  obtain ⟨hle, hbytes, hzero⟩ := strnlenAt_spec mem src n
  rcases Nat.lt_trichotomy (strnlenAt mem src n) k with hlt | heq | hlt
  · exact (h.1 _ hlt (hzero (Nat.lt_trans hlt hk))).elim
  · exact heq
  · exact (hbytes k hlt h.2).elim

/-- **The loop of `copy_string`** copies a string up to its end, if it returns 1. -/
theorem copyLoop_string (mm : Option ℕ) (mem : ℕ → UInt8) {dst : ℕ → UInt8} {fuel part : ℕ} (hsrc : src < 2 ^ 32) (hmaxn : maxn < 2 ^ 32) :
    ((copyLoop mm mem fuel dst off src maxn part).run s).Post
      (fun r _ => r.1 = true → ∃ k < maxn, EndsAt mem src k ∧ r.2 = memcpyAt mem dst off src (k + 1)) (fun _ _ => True)
      fun _ => True := by
  induction fuel generalizing s dst off src maxn part with
  | zero => exact trivial
  | succ fuel ih =>
    obtain ⟨piece, hpiece⟩ : ∃ piece, piece = if part > maxn then maxn else part := ⟨_, rfl⟩
    have hmax : piece ≤ maxn := by
      rw [hpiece]
      split_ifs <;> omega
    obtain ⟨-, hbytes, hzero⟩ := strnlenAt_spec mem src piece
    rw [copyLoop, ← hpiece]
    refine Outcome.post_bind.mpr ((userMemCheck_range mm hsrc (Nat.lt_of_le_of_lt hmax hmaxn) false).mono ?_ (fun _ _ _ => trivial)
      fun _ _ => trivial)
    intro c s₁ hc
    cases c with
    | false => exact fun hb => absurd hb Bool.false_ne_true
    | true =>
      obtain ⟨hpos, hword⟩ := hc rfl
      rw [if_neg (not_not.mpr rfl)]
      by_cases hend : strnlenAt mem src piece < piece
      · rw [if_pos hend]
        exact fun _ => ⟨_, Nat.lt_of_lt_of_le hend hmax, ⟨hbytes, hzero hend⟩, rfl⟩
      · rw [if_neg hend]
        by_cases hlast : piece = maxn
        · rw [if_pos hlast]
          exact fun hb => absurd hb Bool.false_ne_true
        · have hnext : add32 src piece = src + piece := Nat.mod_eq_of_lt hword
          rw [if_neg hlast, hnext]
          refine (ih hword (Nat.lt_of_le_of_lt (Nat.sub_le maxn piece) hmaxn)).mono ?_ (fun _ _ _ => trivial) fun _ _ => trivial
          intro r _ hr hb
          obtain ⟨k, hk, ⟨hrest, hstop⟩, hdst⟩ := hr hb
          refine ⟨piece + k, by omega, ⟨fun i hi => ?_, ?_⟩, ?_⟩
          · by_cases hfirst : i < piece
            · exact hbytes i (Nat.lt_of_lt_of_le hfirst (Nat.le_of_not_lt hend))
            · have hbyte := hrest (i - piece) (by omega)
              rwa [Nat.add_assoc, Nat.add_sub_of_le (Nat.le_of_not_lt hfirst)] at hbyte
          · rw [← Nat.add_assoc, hstop]
          · rw [hdst, memcpyAt_memcpyAt, Nat.add_assoc]

/-- What `copy_kargv` takes for the argument `i`: the string at `argv[i]`. -/
def argString (mem : ℕ → UInt8) (argv i : ℕ) : List UInt8 := stringAt mem (wordAt mem (add32 argv (4 * i))) (execMaxArgLen + 1)

/-- The string in a buffer. -/
def Kbuf.string (buf : Kbuf) : List UInt8 := stringAt buf.2 0 (execMaxArgLen + 1)

/-- A string that `load_icode` can be called with: the 0 is behind it, and it is not too long. -/
def IsArg (arg : List UInt8) : Prop := 0 ∉ arg ∧ arg.length ≤ execMaxArgLen

theorem copyString_string (mm : Option ℕ) (mem dst : ℕ → UInt8) (buffer : ℕ) (hsrc : src < 2 ^ 32) :
    ((copyString mm mem dst src (execMaxArgLen + 1)).run s).Post
      (fun r _ => r.1 = true → Kbuf.string (buffer, r.2) = stringAt mem src (execMaxArgLen + 1) ∧ IsArg (Kbuf.string (buffer, r.2)))
      (fun _ _ => True) fun _ => True := by
  unfold copyString
  refine (copyLoop_string mm mem hsrc (by decide)).mono ?_ (fun _ _ _ => trivial) fun _ _ => trivial
  intro r _ hr hb
  obtain ⟨k, hk, hends, hdst⟩ := hr hb
  have hcopy : ∀ i ≤ k, r.2 (0 + i) = mem (src + i) := by
    intro i hi
    rw [hdst]
    unfold memcpyAt
    rw [if_pos ⟨Nat.zero_le _, by omega⟩, Nat.zero_add, Nat.sub_zero]
  have hends' : EndsAt r.2 0 k := by
    refine ⟨fun i hi => ?_, ?_⟩
    · rw [hcopy i (Nat.le_of_lt hi)]
      exact hends.1 i hi
    · rw [hcopy k (Nat.le_refl _)]
      exact hends.2
  have hstring : Kbuf.string (buffer, r.2) = (List.range k).map fun i => mem (src + i) := by
    unfold Kbuf.string stringAt
    rw [hends'.strnlenAt_eq hk]
    exact List.map_congr_left fun i hi => hcopy i (Nat.le_of_lt (List.mem_range.mp hi))
  rw [hstring]
  refine ⟨?_, fun hmem => ?_, ?_⟩
  · unfold stringAt
    rw [hends.strnlenAt_eq hk]
  · obtain ⟨i, hi, hzero⟩ := List.mem_map.mp hmem
    exact hends.1 i (List.mem_range.mp hi) hzero
  · rw [List.length_map, List.length_range]
    exact Nat.le_of_lt_succ hk

theorem kargvLoop_strings (al : Allocs) (mm : Option ℕ) (mem : ℕ → UInt8) (junk : ℕ → ℕ → UInt8) (argv : ℕ) {i : ℕ} {kargv : List Kbuf} :
    ((kargvLoop al mm mem junk argv n i kargv).run s).Post
      (fun r _ => ∃ bufs, r = kargv.reverse ++ bufs ∧ bufs.map Kbuf.string = (List.range' i n).map (argString mem argv) ∧
        ∀ arg ∈ bufs.map Kbuf.string, IsArg arg) (fun _ _ => True) fun _ => True := by
  induction n generalizing s i kargv with
  | zero => exact ⟨[], (List.append_nil _).symm, rfl, fun _ hmem => (List.not_mem_nil hmem).elim⟩
  | succ n ih =>
    unfold kargvLoop
    have hkmalloc : ((kmalloc al).run s).Post (fun _ _ => True) (fun _ _ => True) fun _ => True := by
      cases (kmalloc al).run s <;> exact trivial
    refine Outcome.post_bind.mpr (hkmalloc.mono ?_ (fun _ _ _ => trivial) fun _ _ => trivial)
    intro r s₁ _
    cases r with
    | none => exact post_throw_after
    | some buffer =>
      have hsrc : wordAt mem (add32 argv (4 * i)) < 2 ^ 32 := le32_lt _ _
      refine Outcome.post_bind.mpr ((copyString_string mm mem (junk buffer) buffer hsrc).mono ?_ (fun _ _ _ => trivial) fun _ _ => trivial)
      rintro ⟨done, dst⟩ s₂ hstring
      cases done with
      | false =>
        show Outcome.Post _ _ _ (Prog.run (kfree buffer >>= fun _ => putKargv kargv >>= fun _ => Prog.throw .inval) s₂)
        rw [← Prog.bind_assoc]
        exact post_throw_after
      | true =>
        obtain ⟨hcopied, harg⟩ := hstring rfl
        refine ih.mono ?_ (fun _ _ _ => trivial) fun _ _ => trivial
        rintro r _ ⟨bufs, hr, hbufs, hargs⟩
        refine ⟨(buffer, dst) :: bufs, ?_, ?_, fun arg hmem => ?_⟩
        · rw [hr, List.reverse_cons, List.append_assoc]
          rfl
        · rw [List.map_cons, hcopied, hbufs, List.range'_succ, List.map_cons]
          rfl
        · rcases List.mem_cons.mp hmem with rfl | hmem
          · exact harg
          · exact hargs arg hmem

/-- **`copy_kargv`** copies the strings at the addresses of `argv`, and takes none that is too long. -/
theorem copyKargv_strings (al : Allocs) (mm : Option ℕ) (mem : ℕ → UInt8) (junk : ℕ → ℕ → UInt8) (argc argv : ℕ) :
    ((copyKargv al mm mem junk argc argv).run s).Post
      (fun kargv _ => kargv.map Kbuf.string = (List.range argc).map (argString mem argv) ∧
        ∀ arg ∈ kargv.map Kbuf.string, IsArg arg) (fun _ _ => True) fun _ => True := by
  unfold copyKargv
  rw [Outcome.post_bind]
  cases (userMemCheck mm argv (4 * argc) false).run s with
  | error e s₁ => exact trivial
  | panic p => exact trivial
  | ok b s₁ =>
    cases b with
    | false => exact trivial
    | true =>
      refine (kargvLoop_strings al mm mem junk argv).mono ?_ (fun _ _ _ => trivial) fun _ _ => trivial
      rintro kargv _ ⟨bufs, rfl, hbufs, hargs⟩
      rw [List.range_eq_range']
      exact ⟨hbufs, hargs⟩

/-! ### What `main` finds -/

/-- The addresses of strings that stand one behind the other from `dst` on. -/
def argPtrs : ℕ → List (List UInt8) → List ℕ
  | _, [] => []
  | dst, arg :: args => dst :: argPtrs (dst + (arg.length + 1)) args

/-- Where the number of arguments, their addresses and the strings are: the start and the length of each. -/
def argPlaces (esp : ℕ) (ptrs : List ℕ) (args : List (List UInt8)) : List (ℕ × ℕ) :=
  (esp, 4) :: ((List.range args.length).map fun i => (esp + 4 + 4 * i, 4)) ++
    List.zipWith (fun p arg => (p, arg.length + 1)) ptrs args

/-- Two places have no address in common. -/
def PlacesApart (r r' : ℕ × ℕ) : Prop := r.1 + r.2 ≤ r'.1 ∨ r'.1 + r'.2 ≤ r.1

/-- The program of the address space `m` finds `args` at its stack pointer, with the strings at `ptrs`. -/
structure VmState.HasArgs (s : VmState) (m esp : ℕ) (ptrs : List ℕ) (args : List (List UInt8)) : Prop where
  number : loadWord (s.userLoad (s.mm m).pgdir) esp = some args.length
  length : ptrs.length = args.length
  pointers : ∀ i < args.length, loadWord (s.userLoad (s.mm m).pgdir) (esp + 4 + 4 * i) = some (ptrs.getD i 0)
  strings : ∀ i < args.length, HasBytes (s.userLoad (s.mm m).pgdir) (ptrs.getD i 0) (args.getD i [] ++ [0])
  apart : (argPlaces esp ptrs args).Pairwise PlacesApart
  stack : ∃ v ∈ (s.mm m).mmapList, v.area = stackArea ∧
    ∀ r ∈ argPlaces esp ptrs args, esp ≤ r.1 ∧ v.vmStart ≤ r.1 ∧ r.1 + r.2 ≤ v.vmEnd

/-- User code gets the bytes of its pages. -/
theorem Layout.Private.userLoad (h : l.Private m d s) (ha : a < kernBase) {b : UInt8} (hb : s.byteAt d a = some b) :
    s.userLoad d a = some b := by
  have hx := h.slot_mem ha
  have hpresent : (s.pte (slotOf d a)).present = true := by
    rw [← isSome_byteAt, hb]
    rfl
  have htable : l.TableAt s d (pdx a) (s.entry d (pdx a)).ppn := Layout.tableAt_of_named hx (Pte.page_of_present hpresent)
  have hpte : s.pte (slotOf d a) = s.entry (s.entry d (pdx a)).ppn (ptx a) := Layout.TableAt.pte (x := slotOf d a) htable
  have huser : (s.entry d (pdx a)).user = true := by
    unfold Pte.user
    rw [h.ok.tableFlags htable]
    decide
  have hnone : s.faultCode d a false true = none := by
    unfold VmState.faultCode
    dsimp only
    rw [← hpte, if_pos ⟨htable.present, hpresent⟩, if_neg]
    rintro (⟨hwrite, -⟩ | ⟨-, hnot⟩)
    · cases hwrite
    · exact hnot ⟨huser, h.user _ hx rfl hpresent⟩
  unfold VmState.userLoad
  rw [if_pos hnone, hb]

theorem HoldsArgs.mainArgs_eq (h : HoldsArgs load dst uargv args) (hargs : ∀ arg ∈ args, IsArg arg) (hend : dst + argvSize args ≤ 2 ^ 32) :
    mainArgs load args.length uargv = some args := by
  induction args generalizing dst uargv with
  | nil => rfl
  | cons arg args ih =>
    obtain ⟨hstring, hword, hrest⟩ := h
    obtain ⟨hzero, hlen⟩ := hargs arg List.mem_cons_self
    rw [argvSize_cons args hlen] at hend
    rw [List.length_cons]
    unfold mainArgs
    rw [loadWord_of_hasBytes hword (by omega)]
    show (loadString load (execMaxArgLen + 1) dst).bind _ = _
    rw [loadString_of_hasBytes hstring hzero (Nat.lt_succ_of_le hlen)]
    show (mainArgs load args.length (uargv + 4)).bind _ = _
    rw [ih hrest (fun arg' h' => hargs arg' (List.mem_cons_of_mem arg h')) (by omega)]
    rfl

theorem length_argPtrs (dst : ℕ) (args : List (List UInt8)) : (argPtrs dst args).length = args.length := by
  induction args generalizing dst with
  | nil => rfl
  | cons arg args ih => exact congrArg Nat.succ (ih _)

/-- The string and the address of the argument `i`. -/
theorem HoldsArgs.get (h : HoldsArgs load dst uargv args) (hlen : ∀ arg ∈ args, arg.length ≤ execMaxArgLen) {i : ℕ} (hi : i < args.length) :
    HasBytes load ((argPtrs dst args).getD i 0) (args.getD i [] ++ [0]) ∧
      HasBytes load (uargv + 4 * i) (bytes32 ((argPtrs dst args).getD i 0)) ∧ (argPtrs dst args).getD i 0 < dst + argvSize args := by
  induction args generalizing dst uargv i with
  | nil => exact (Nat.not_lt_zero _ hi).elim
  | cons arg args ih =>
    obtain ⟨hstring, hword, hrest⟩ := h
    rw [argvSize_cons args (hlen arg List.mem_cons_self)]
    cases i with
    | zero =>
      refine ⟨hstring, hword, ?_⟩
      show dst < _
      omega
    | succ i =>
      obtain ⟨hs, hw, hlt⟩ := ih hrest (fun arg' h' => hlen arg' (List.mem_cons_of_mem arg h')) (Nat.lt_of_succ_lt_succ hi)
      rw [show uargv + 4 + 4 * i = uargv + 4 * (i + 1) by omega] at hw
      refine ⟨hs, hw, ?_⟩
      show (argPtrs (dst + (arg.length + 1)) args).getD i 0 < _
      omega

/-- The strings stand in order. -/
theorem stringPlaces_ordered (hlen : ∀ arg ∈ args, arg.length ≤ execMaxArgLen) (dst : ℕ) :
    (List.zipWith (fun p (arg : List UInt8) => (p, arg.length + 1)) (argPtrs dst args) args).Pairwise (fun r r' => r.1 + r.2 ≤ r'.1) ∧
      ∀ r ∈ List.zipWith (fun p (arg : List UInt8) => (p, arg.length + 1)) (argPtrs dst args) args,
        dst ≤ r.1 ∧ r.1 + r.2 ≤ dst + argvSize args := by
  induction args generalizing dst with
  | nil => exact ⟨List.Pairwise.nil, fun _ hmem => (List.not_mem_nil hmem).elim⟩
  | cons arg args ih =>
    obtain ⟨hordered, hwithin⟩ := ih (fun arg' h' => hlen arg' (List.mem_cons_of_mem arg h')) (dst + (arg.length + 1))
    rw [argvSize_cons args (hlen arg List.mem_cons_self)]
    unfold argPtrs
    rw [List.zipWith_cons_cons]
    refine ⟨List.pairwise_cons.mpr ⟨fun r hr => (hwithin r hr).1, hordered⟩, fun r hr => ?_⟩
    rcases List.mem_cons.mp hr with rfl | hr
    · exact ⟨Nat.le_refl _, by omega⟩
    · obtain ⟨hle, hend⟩ := hwithin r hr
      exact ⟨by omega, by omega⟩

/-- The number, the addresses and the strings stand in order. -/
theorem argPlaces_ordered (hlen : ∀ arg ∈ args, arg.length ≤ execMaxArgLen) {esp : ℕ} (hdst : esp + 4 + 4 * args.length ≤ dst) :
    (argPlaces esp (argPtrs dst args) args).Pairwise (fun r r' => r.1 + r.2 ≤ r'.1) ∧
      ∀ r ∈ argPlaces esp (argPtrs dst args) args, esp ≤ r.1 ∧ r.1 + r.2 ≤ dst + argvSize args := by
  obtain ⟨hordered, hwithin⟩ := stringPlaces_ordered hlen dst
  have hword : ∀ r ∈ (List.range args.length).map fun i => (esp + 4 + 4 * i, 4), esp + 4 ≤ r.1 ∧ r.1 + r.2 ≤ esp + 4 + 4 * args.length := by
    intro r hr
    obtain ⟨i, hi, rfl⟩ := List.mem_map.mp hr
    have hi := List.mem_range.mp hi
    exact ⟨Nat.le_add_right _ _, by dsimp only; omega⟩
  have hwords : ((List.range args.length).map fun i => (esp + 4 + 4 * i, 4)).Pairwise fun r r' => r.1 + r.2 ≤ r'.1 :=
    List.pairwise_map.mpr (List.pairwise_lt_range.imp fun hlt => by dsimp only; omega)
  unfold argPlaces
  rw [List.cons_append]
  refine ⟨List.pairwise_cons.mpr ⟨fun r hr => ?_, List.pairwise_append.mpr ⟨hwords, hordered, fun r hr r' hr' => ?_⟩⟩, fun r hr => ?_⟩
  · rcases List.mem_append.mp hr with hr | hr
    · exact (hword r hr).1
    · exact Nat.le_trans (Nat.le_trans (Nat.le_add_right _ _) hdst) (hwithin r hr).1
  · exact Nat.le_trans (hword r hr).2 (Nat.le_trans hdst (hwithin r' hr').1)
  · rcases List.mem_cons.mp hr with rfl | hr
    · exact ⟨Nat.le_refl _, by dsimp only; omega⟩
    · rcases List.mem_append.mp hr with hr | hr
      · obtain ⟨hle, hend⟩ := hword r hr
        exact ⟨by omega, by omega⟩
      · obtain ⟨hle, hend⟩ := hwithin r hr
        exact ⟨by omega, hend⟩

theorem Layout.Private.hasArgs (h : l.Private m d s) (hargs : ArgsOk args) (hstrings : ∀ arg ∈ args, IsArg arg)
    (hnumber : HasBytes (s.byteAt d) (stackPointer args) (bytes32 args.length))
    (hholds : HoldsArgs (s.byteAt d) (argsTop args) (stackPointer args + 4) args)
    (hstack : ∃ v ∈ (s.mm m).mmapList, v.area = stackArea) :
    s.HasArgs m (stackPointer args) (argPtrs (argsTop args) args) args ∧
      ∀ load, (∀ a, stackPointer args ≤ a → load a = s.userLoad d a) →
        start load (stackPointer args) = some (args.length, stackPointer args + 4) ∧
          mainArgs load args.length (stackPointer args + 4) = some args := by
  obtain ⟨-, hbelow⟩ := hargs.words
  obtain ⟨hlow, -, htop, -, -⟩ := hargs.stack
  have hkern : userTop ≤ kernBase := by decide
  have hword : userTop < 2 ^ 32 := by decide
  have hcount : args.length < 2 ^ 32 := Nat.lt_of_le_of_lt hargs.number (by decide)
  have hfour : (bytes32 args.length).length = 4 := rfl
  obtain ⟨hordered, hwithin⟩ := argPlaces_ordered hargs.len hbelow
  -- what the kernel has written can be loaded by user code
  have hloads : ∀ load, (∀ a, stackPointer args ≤ a → load a = s.userLoad d a) →
      HasBytes load (stackPointer args) (bytes32 args.length) ∧ HoldsArgs load (argsTop args) (stackPointer args + 4) args := by
    intro load hload
    have hbyte : ∀ c, stackPointer args ≤ c → c < kernBase → ∀ b, s.byteAt d c = some b → load c = some b := fun c hle hlt b hb => by
      rw [hload c hle, h.userLoad hlt hb]
    refine ⟨hnumber.congr fun c hle hlt => hbyte c hle (by omega), hholds.congr hargs.len fun c hc => hbyte c ?_ ?_⟩
    · omega
    · omega
  obtain ⟨hnumber', hholds'⟩ := hloads (s.userLoad d) fun _ _ => rfl
  refine ⟨⟨?_, length_argPtrs _ _, fun i hi => ?_, fun i hi => ?_, hordered.imp Or.inl, ?_⟩, fun load hload => ?_⟩
  · rw [h.pgdir]
    exact loadWord_of_hasBytes hnumber' hcount
  · obtain ⟨-, hptr, hlt⟩ := hholds'.get hargs.len hi
    rw [h.pgdir]
    exact loadWord_of_hasBytes hptr (Nat.lt_trans (Nat.lt_of_lt_of_le hlt htop) hword)
  · rw [h.pgdir]
    exact (hholds'.get hargs.len hi).1
  · obtain ⟨v, hv, harea⟩ := hstack
    have hstart : v.vmStart = ustackTop - ustackSize := congrArg Prod.fst harea
    have hstop : v.vmEnd = ustackTop := congrArg (fun a => a.2.1) harea
    refine ⟨v, hv, harea, fun r hr => ?_⟩
    obtain ⟨hle, hend⟩ := hwithin r hr
    rw [hstart, hstop]
    exact ⟨hle, Nat.le_trans hlow hle, Nat.le_trans hend htop⟩
  · obtain ⟨hn, hh⟩ := hloads load hload
    refine ⟨?_, hh.mainArgs_eq hstrings (Nat.le_trans htop (Nat.le_of_lt hword))⟩
    unfold start
    rw [loadWord_of_hasBytes hn hcount]
    rfl

/-- **The arguments round-trip.** When `copy_kargv` has accepted the strings at `argv`, and `load_icode` has returned, the number is
at the stack pointer, the addresses are above it, and the strings where these say, in places of the stack that are apart. What
`_start` pushes is below the stack pointer, so `main` finds the strings. -/
theorem program_arguments_round_trip (al : Allocs) {mm : Option ℕ} {mem : ℕ → UInt8} {junk : ℕ → ℕ → UInt8} {argc argv : ℕ}
    {s₀ s₁ s s' : VmState} {kargv : List Kbuf} {l : Layout} {file : ExecFile} {r : Loaded} (hargc : argc ≤ execMaxArgNum)
    (hcopy : (copyKargv al mm mem junk argc argv).run s₀ = .ok kargv s₁) (h : l.Machine [] s)
    (hrun : (loadIcode al file (kargv.map Kbuf.string)).run s = .ok r s') :
    (∃ ptrs, s'.HasArgs r.mm r.stack ptrs ((List.range argc).map (argString mem argv))) ∧
      ∀ load, (∀ a, r.stack ≤ a → load a = s'.userLoad (s'.mm r.mm).pgdir a) →
        start load r.stack = some (argc, r.stack + 4) ∧
          mainArgs load argc (r.stack + 4) = some ((List.range argc).map (argString mem argv)) := by
  have hstrings := copyKargv_strings al mm mem junk argc argv (s := s₀)
  rw [hcopy] at hstrings
  obtain ⟨hlist, hargs⟩ := hstrings
  rw [hlist] at hargs hrun
  have hlength : ((List.range argc).map (argString mem argv)).length = argc := by
    rw [List.length_map, List.length_range]
  have hok : ArgsOk ((List.range argc).map (argString mem argv)) :=
    ⟨by rw [hlength]; exact hargc, fun arg hmem => (hargs arg hmem).2⟩
  have hpost := loadIcode_holds al h file hok
  rw [hrun] at hpost
  obtain ⟨hstack, harea, l', hprivate, hnumber, hholds⟩ := hpost
  obtain ⟨hhas, hmain⟩ := hprivate.hasArgs hok hargs hnumber hholds harea
  rw [hlength] at hmain
  rw [hstack]
  exact ⟨⟨_, hhas⟩, hmain⟩

/-- Two pointers, and the strings `ab` and `c`. -/
def twoStrings (a : ℕ) : UInt8 :=
  ([0x08, 0, 0, 0xC0, 0x0B, 0, 0, 0xC0, 97, 98, 0, 99, 0] : List UInt8).getD (a - 0xC0000000) 0

/-- A program is called with two arguments. -/
theorem program_arguments_round_trip_two : ∃ r s',
    (loadIcode .firstFit emptyProgram [[97, 98], [99]]).run (.start 0 [1, 2, 3, 4, 5, 6, 7]) = .ok r s' ∧
    start (s'.userLoad (s'.mm r.mm).pgdir) r.stack = some (2, r.stack + 4) ∧
    mainArgs (s'.userLoad (s'.mm r.mm).pgdir) 2 (r.stack + 4) = some [[97, 98], [99]] := by
  obtain ⟨kargv, s₁, hcopy⟩ : ∃ kargv s₁,
      (copyKargv .firstFit none twoStrings (fun _ _ => 7) 2 0xC0000000).run (.start 0 [1, 2, 3, 4, 5, 6, 7]) = .ok kargv s₁ :=
    Outcome.of_isSome_observe (f := fun _ : VmState => ()) (by decide +kernel)
  have hlist : (List.range 2).map (argString twoStrings 0xC0000000) = [[97, 98], [99]] := by decide +kernel
  have hstrings := copyKargv_strings .firstFit none twoStrings (fun _ _ => 7) 2 0xC0000000 (s := .start 0 [1, 2, 3, 4, 5, 6, 7])
  rw [hcopy] at hstrings
  have hkargv : kargv.map Kbuf.string = [[97, 98], [99]] := hstrings.1.trans hlist
  obtain ⟨r, s', hrun⟩ : ∃ r s',
      (loadIcode .firstFit emptyProgram (kargv.map Kbuf.string)).run (.start 0 [1, 2, 3, 4, 5, 6, 7]) = .ok r s' := by
    rw [hkargv]
    exact Outcome.of_isSome_observe (f := fun _ : VmState => ()) (by decide +kernel)
  obtain ⟨l, hmachine⟩ : ∃ l : Layout, l.Machine [] (.start 0 [1, 2, 3, 4, 5, 6, 7]) := start_machine (by decide) (by decide)
  obtain ⟨-, hmain⟩ := program_arguments_round_trip .firstFit (show 2 ≤ execMaxArgNum by decide) hcopy hmachine hrun
  rw [hlist] at hmain
  rw [hkargv] at hrun
  exact ⟨r, s', hrun, hmain _ fun _ _ => rfl⟩

end Ucore.Vm
