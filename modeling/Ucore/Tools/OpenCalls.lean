import Ucore.Fs.DispatchRuns
import Ucore.Fs.KernelVfs
import Ucore.Tools.OpenPath

/-!
# Opening on an image

The calls of `Ucore.Fs.VopDispatch` with the operations of the kernel, on an image that the program has built. A path
that is not found is an error, unless it is to be created: `open_create_panics`.
-/

namespace Ucore.Tools

open Ucore.Lib Ucore.Fs Relation

/-- What the operations depend on in the first process: the root is the current directory and in memory. -/
def bootKernel : KernelEnv := ⟨bootEnv, ⟨fun _ => 1, []⟩, 64⟩

/-- A file system, and a process without open files. -/
def freshState (s : Sfs) : VfsState KernelFs Inode := ⟨⟨s, [], []⟩, fun _ => none⟩

variable {s : Sfs}

/-- A lookup of a name in the current directory, in the terms of `sfs_lookup`. -/
theorem vfsLookupOp_letters (n : ℕ) (hn : n ≠ 0) {e : FsError}
    (hlookup : (sfsLookup [1, 1] 1 (letters n hn).toCString).run s = .error e s) :
    (vfsLookupOp (kernelVfs bootKernel) (letters n hn).toCString).run (freshState s) = .error e (freshState s) := by
  have hstart : ((kernelVfs bootKernel).getDevice (letters n hn).toCString).run ⟨s, [], []⟩ =
      .ok (⟨.sfs 1, .dirops⟩, (letters n hn).toCString) ⟨s, [], []⟩ := by
    simp only [kernelVfs, splitPath_letters]
    rfl
  have hfound : ((kernelVfs bootKernel).lookup ⟨.sfs 1, .dirops⟩ (letters n hn).toCString).run ⟨s, [], []⟩ =
      .error e ⟨s, [], []⟩ := by
    have hlookup' : (vopLookup bootEnv (.sfs 1) (letters n hn).toCString).run s = .error e s :=
      Prog.bind_of_error hlookup
    exact Prog.bind_of_error (onDisk_of_error hlookup')
  have hget : (onFs ((kernelVfs bootKernel).getDevice (letters n hn).toCString) : VfsProg _ _ _ _).run (freshState s) =
      .ok (⟨.sfs 1, .dirops⟩, (letters n hn).toCString) (freshState s) :=
    onFs_eq_ok.mpr ⟨_, hstart, rfl⟩
  rw [vfsLookupOp, Prog.bind_of_ok hget]
  simp only
  rw [if_pos (letters n hn).ne_nil]
  exact vopOp_of_error rfl hfound

end Ucore.Tools
