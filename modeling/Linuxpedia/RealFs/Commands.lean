import Linuxpedia.RealFs.RoundTrip
import Linuxpedia.Sfs.Serving

/-! The commands of the v3.0 shell on the store of named files that the driver serves. The
shell knows a file by its text, the bytes of its blocks cut to its size. It stores a new text
in the blocks that it finds free, and the rest of the last block holds whatever was there,
so a command is a relation between stores. -/

namespace Linuxpedia.Sfs

open Lib

namespace Node

/-- The bytes of a file. -/
def text (f : Node) : List UInt8 := ((List.range 9).filterMap f.block).flatten.take f.size

/-- The line of the listing for a file. -/
def line (f : Node) (fn : List UInt8) : RealFs.Output :=
  .line fn f.size [if f.mode &&& 0o444 ≠ 0 then 'r' else '-',
    if f.mode &&& 0o222 ≠ 0 then 'w' else '-', if f.mode &&& 0o111 ≠ 0 then 'x' else '-'] f.time

end Node

namespace Nodes

/-- The store without a name. -/
def erase (F : Nodes) (fn : List UInt8) : Nodes := Function.update F fn none

/-- The blocks that a new text of `fn` finds, its old ones among them. -/
noncomputable def room (cap : Capacity) (F : Nodes) (fn : List UInt8) : ℕ :=
  cap.blocks - (F.erase fn).stored.ncard

/-- The bytes of a new text that are kept. -/
noncomputable def kept (cap : Capacity) (F : Nodes) (fn input : List UInt8) : ℕ :=
  min input.length (512 * min 9 (F.room cap fn))

/-- What a command does to the files, and what it prints. -/
inductive Command (cap : Capacity) (F : Nodes) : RealFs.Command → List RealFs.Output → Nodes → Prop
  | list (out : List RealFs.Output) (hnodup : out.Nodup)
      (hmem : ∀ l, l ∈ out ↔ ∃ fn f, F fn = some f ∧ l = f.line fn) : Command cap F .list out F
  | create (fn : List UInt8) (now : UInt32) (habsent : F fn = none)
      (hroom : (SlotMap.keys F).ncard < cap.names) :
      Command cap F (.create fn now) [] (F.put fn ⟨0, modeOfPerms 7, now, fun _ => none⟩)
  | createFails (fn : List UInt8) (now : UInt32) (hfull : ¬ (SlotMap.keys F).ncard < cap.names) :
      Command cap F (.create fn now) [.text "No entries left\n" fn] F
  | remove (fn : List UInt8) (f : Node) (h : F fn = some f) :
      Command cap F (.remove fn) [] (F.erase fn)
  | removeFails (fn : List UInt8) (h : F fn = none) :
      Command cap F (.remove fn) [.text "File %s doesn't exist\n" fn] F
  | chperm (perm : ℤ) (fn : List UInt8) (f : Node) (h : F fn = some f) :
      Command cap F (.chperm perm fn) [] (F.put fn { f with
        mode := if perm ≤ 7 then modeOfPerms (UInt32.ofInt perm) else f.mode })
  | chpermFails (perm : ℤ) (fn : List UInt8) (h : F fn = none) :
      Command cap F (.chperm perm fn) [.text "File %s doesn't exist\n" fn] F
  | read (fn : List UInt8) (f : Node) (h : F fn = some f) (hr : f.mode &&& 0o444 ≠ 0) :
      Command cap F (.read fn) [.data f.text] F
  | readRefused (fn : List UInt8) (f : Node) (h : F fn = some f) (hr : f.mode &&& 0o444 = 0) :
      Command cap F (.read fn) [.text "File %s doesn't have read permissions\n" fn] F
  | readFails (fn : List UInt8) (h : F fn = none) :
      Command cap F (.read fn) [.text "File %s doesn't exist\n" fn] F
  | write (fn : List UInt8) (stdin : Stdin) (now : UInt32) (f g : Node) (h : F fn = some f)
      (hw : f.mode &&& 0o222 ≠ 0) (hsize : g.size = F.kept cap fn stdin.input)
      (hmode : g.mode = f.mode) (htime : g.time = now)
      (hblock : ∀ k, g.block k ≠ none ↔ 512 * k < g.size)
      (htext : g.text = stdin.input.take g.size) :
      Command cap F (.write fn stdin now) [] (F.put fn g)
  | writeRefused (fn : List UInt8) (stdin : Stdin) (now : UInt32) (f : Node) (h : F fn = some f)
      (hw : f.mode &&& 0o222 = 0) :
      Command cap F (.write fn stdin now) [.text "File %s doesn't have write permissions\n" fn] F
  | writeFails (fn : List UInt8) (stdin : Stdin) (now : UInt32) (h : F fn = none) :
      Command cap F (.write fn stdin now) [.text "File %s doesn't exist\n" fn] F

/-- Files are created under new names. A new text covers every block of the old one, and the
blocks do not end just before a last partial block. -/
def AllowedCommand (cap : Capacity) (F : Nodes) : RealFs.Command → Prop
  | .create fn _ => SfsFileEntry.NameOk fn ∧ F fn = none
  | .write fn stdin _ => ∀ f, F fn = some f → f.mode &&& 0o222 ≠ 0 →
      (∀ k, f.block k ≠ none → 512 * k < F.kept cap fn stdin.input) ∧
      (9 ≤ F.room cap fn ∨ stdin.input.length / 512 ≠ F.room cap fn ∨
        stdin.input.length % 512 = 0)
  | _ => True

variable {cap : Capacity} {F F' : Nodes}

theorem Tidy.command (h : F.Tidy) {c : RealFs.Command} {out : List RealFs.Output}
    (hc : Command cap F c out F') : F'.Tidy := by
  cases hc with
  | create fn now habsent hroom => exact h.put (Nat.two_pow_pos 31) fun k hk => absurd rfl hk
  | remove fn f hf => exact Tidy.erase h fn
  | chperm perm fn f hf => exact h.put (h fn f hf).1 (h fn f hf).2
  | write fn stdin now f g hf hw hsize hmode htime hblock htext =>
    have hle : g.size ≤ 512 * 9 := by
      rw [hsize, kept]
      omega
    refine h.put (by omega) fun k hk => ?_
    have hlt := (hblock k).mp hk
    exact ⟨by omega, hlt⟩
  | _ => exact h

end Nodes

end Linuxpedia.Sfs
