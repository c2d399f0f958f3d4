import Linuxpedia.Lib.Run
import Linuxpedia.Lib.Terminated
import Linuxpedia.RealFs.Browse

/-! The command interpreter of the v3.0 shell, `browse_sfs`. It compares the line with the
commands one after the other and takes the arguments at fixed offsets; every test looks at
bytes of the line up to its terminator. What it performs is what the grammar of the commands
says of the line. -/

namespace Linuxpedia.RealFs

open Lib Sfs

/-- The bytes of a word of the source. -/
def ascii (cs : List Char) : List UInt8 := cs.map fun c => UInt8.ofNat c.toNat

def questionMark : List UInt8 := ascii ['?']

def quitWord : List UInt8 := ascii ['q', 'u', 'i', 't']

def listWord : List UInt8 := ascii ['l', 'i', 's', 't']

def createWord : List UInt8 := ascii ['c', 'r', 'e', 'a', 't', 'e']

def removeWord : List UInt8 := ascii ['r', 'e', 'm', 'o', 'v', 'e']

def chpermWord : List UInt8 := ascii ['c', 'h', 'p', 'e', 'r', 'm']

def readWord : List UInt8 := ascii ['r', 'e', 'a', 'd']

def writeWord : List UInt8 := ascii ['w', 'r', 'i', 't', 'e']

/-- `' '`. -/
def space : UInt8 := 32

/-- What one line makes the shell do. -/
inductive Reply where
  | usage
  | quit
  | command (c : Command)
  | unknown

/-- `if (cmd[k] == ' ') { fn = cmd + k + 1; while (*fn == ' ') fn++; if (*fn != '\0') … }`:
the file name, or none where one of the tests fails. The outer option is none where a byte
behind the terminator is looked at. -/
def fileArgument (cmd : List UInt8) (k : ℕ) : Option (Option (List UInt8)) := do
  let c ← cmd[k]?
  if c = space then
    let fn ← skip space (cmd.drop (k + 1))
    let c ← fn.head?
    if c ≠ 0 then return some (fn.takeWhile (· ≠ 0))
    else return none
  else return none

/-- The permissions and the file name of a `chperm`. -/
def chpermArguments (cmd : List UInt8) : Option (Option (ℤ × List UInt8)) := do
  let c ← cmd[6]?
  if c = space then
    let c ← cmd[7]?
    let perm : ℤ := c.toInt8.toInt - 48
    if 0 ≤ perm ∧ perm ≤ 7 then
      let fn ← fileArgument cmd 8
      return fn.map fun fn => (perm, fn)
    else return none
  else return none

/-- A test that fails falls through to the report. -/
def orUnknown {α : Type} (f : α → Command) (a : Option α) : Reply := a.elim .unknown fun a => .command (f a)

/-- The chain of comparisons; `stdin` and `now` are what a command finds. -/
def dispatch (stdin : Stdin) (now : UInt32) (cmd : List UInt8) : Option Reply := do
  if ← strcmpEq cmd (terminated questionMark) then return .usage
  else if ← strcmpEq cmd (terminated quitWord) then return .quit
  else if ← strcmpEq cmd (terminated listWord) then return .command .list
  else if ← strncmpEq 6 cmd (terminated createWord) then
    return orUnknown (.create · now) (← fileArgument cmd 6)
  else if ← strncmpEq 6 cmd (terminated removeWord) then
    return orUnknown .remove (← fileArgument cmd 6)
  else if ← strncmpEq 6 cmd (terminated chpermWord) then
    return orUnknown (fun a => .chperm a.1 a.2) (← chpermArguments cmd)
  else if ← strncmpEq 4 cmd (terminated readWord) then
    return orUnknown .read (← fileArgument cmd 4)
  else if ← strncmpEq 5 cmd (terminated writeWord) then
    return orUnknown (.write · stdin now) (← fileArgument cmd 5)
  else return .unknown

/-- `usage`. -/
def usage : List Output :=
  [.text "Supported commands:\n" [],
    .text "\t?\tquit\tlist\tcreate <file>\tremove <file>\n" [],
    .text "\t\tchperm <0-7> <file>\tread <file>\twrite <file>\n" []]

variable (o : OffT)

/-- The state after a line, what is printed and `done`. -/
def perform (s : Shell) (line : List UInt8) : Reply → Shell × List Output × Bool
  | .usage => (s, usage, false)
  | .quit => (s, [], true)
  | .command c => ((c.run o s).1, (c.run o s).2, false)
  | .unknown => (s, .text "Unknown/Incorrect command: %s\n" line :: usage, false)

/-- One pass of the loop of `browse_sfs`, with a line that `scanf` has put into `cmd`. -/
def browseLine (s : Shell) (stdin : Stdin) (now : UInt32) (line : List UInt8) :
    Option (Shell × List Output × Bool) :=
  (dispatch stdin now (terminated line)).map (perform o s line)

/-- A line typed, and what a command started by it finds. -/
structure Typed where
  line : List UInt8
  stdin : Stdin
  now : UInt32

/-- The loop of `browse_sfs` on the lines typed. An empty line is skipped; the end of the
input ends the loop. -/
def browseLoop : List Typed → Shell → Option (Shell × List Output)
  | [], s => some (s, [.text " $> " [], .text "\n" []])
  | t :: ts, s => do
    if t.line = [] then
      let r ← browseLoop ts s
      return (r.1, .text " $> " [] :: r.2)
    else
      let (s, out, done) ← browseLine o s t.stdin t.now t.line
      if done then return (s, .text " $> " [] :: out)
      else
        let r ← browseLoop ts s
        return (r.1, .text " $> " [] :: out ++ r.2)

/-! ### The grammar -/

/-- `word`, one or more spaces, and a file name that is not empty and does not start with a
space. -/
def FileCommand (word line fn : List UInt8) : Prop :=
  (∃ k, line = word ++ List.replicate (k + 1) space ++ fn) ∧ fn ≠ [] ∧ fn.head? ≠ some space

/-- `'0' + d`. -/
def digit (d : ℕ) : UInt8 := UInt8.ofNat (48 + d)

/-- The lines that the shell understands, and as what. -/
inductive Means (stdin : Stdin) (now : UInt32) (line : List UInt8) : Reply → Prop where
  | usage (h : line = questionMark) : Means stdin now line .usage
  | quit (h : line = quitWord) : Means stdin now line .quit
  | list (h : line = listWord) : Means stdin now line (.command .list)
  | create {fn} (h : FileCommand createWord line fn) :
      Means stdin now line (.command (.create fn now))
  | remove {fn} (h : FileCommand removeWord line fn) : Means stdin now line (.command (.remove fn))
  | chperm {fn d} (hd : d ≤ 7) (h : FileCommand (chpermWord ++ [space, digit d]) line fn) :
      Means stdin now line (.command (.chperm d fn))
  | read {fn} (h : FileCommand readWord line fn) : Means stdin now line (.command (.read fn))
  | write {fn} (h : FileCommand writeWord line fn) :
      Means stdin now line (.command (.write fn stdin now))

/-- The file name behind a word. -/
def nameOf : List UInt8 → Option (List UInt8)
  | [] => none
  | c :: rest =>
    if c = space then
      let fn := rest.dropWhile fun c => c = space
      if fn = [] then none else some fn
    else none

/-- The permissions and the file name behind `chperm`. -/
def permOf : List UInt8 → Option (ℤ × List UInt8)
  | a :: c :: rest =>
    let perm : ℤ := c.toInt8.toInt - 48
    if a = space ∧ 0 ≤ perm ∧ perm ≤ 7 then (nameOf rest).map fun fn => (perm, fn) else none
  | _ => none

variable {line fn word : List UInt8}

theorem nameOf_eq_some {rest : List UInt8} : nameOf rest = some fn ↔
    (∃ k, rest = List.replicate (k + 1) space ++ fn) ∧ fn ≠ [] ∧ fn.head? ≠ some space := by
  cases rest with
  | nil => simp [nameOf, List.replicate_succ]
  | cons c rest =>
    have hrep : (∃ k, c :: rest = List.replicate (k + 1) space ++ fn) ↔
        c = space ∧ ∃ k, rest = List.replicate k space ++ fn := by
      simp [List.replicate_succ]
    have hdrop := dropWhile_eq_iff (s := rest) (t := fn) (b := space)
    rw [hrep]
    by_cases hc : c = space
    · have hname : nameOf (c :: rest) = some fn ↔
          (rest.dropWhile fun c => c = space) = fn ∧ fn ≠ [] := by
        rw [nameOf, if_pos hc]
        by_cases hnil : (rest.dropWhile fun c => c = space) = []
        · simp only [hnil, if_true]
          exact ⟨nofun, fun h => absurd h.1.symm h.2⟩
        · simp only [hnil, if_false, Option.some.injEq]
          exact ⟨fun h => ⟨h, h ▸ hnil⟩, fun h => h.1⟩
      rw [hname, hdrop, and_right_comm, and_assoc, and_iff_right hc]
    · simp [nameOf, hc]

theorem fileCommand_iff : FileCommand word line fn ↔
    word <+: line ∧ nameOf (line.drop word.length) = some fn := by
  rw [nameOf_eq_some]
  constructor
  · rintro ⟨⟨k, rfl⟩, hne, hhead⟩
    rw [List.append_assoc, List.drop_left]
    exact ⟨List.prefix_append _ _, ⟨k, rfl⟩, hne, hhead⟩
  · rintro ⟨⟨rest, rfl⟩, ⟨k, hk⟩, hne, hhead⟩
    rw [List.drop_left] at hk
    exact ⟨⟨k, by rw [hk, List.append_assoc]⟩, hne, hhead⟩

theorem perm_eq_iff {c : UInt8} {d : ℕ} (hd : d ≤ 7) :
    c.toInt8.toInt - 48 = d ↔ c = digit d := by
  have hc := c.toNat_lt
  have hint : c.toInt8.toInt = if 2 * c.toNat < 2 ^ 8 then (c.toNat : ℤ) else c.toNat - 2 ^ 8 :=
    BitVec.toInt_eq_toNat_cond _
  have hdigit : (digit d).toNat = 48 + d := by
    rw [digit, UInt8.toNat_ofNat', Nat.mod_eq_of_lt (by omega)]
  rw [← UInt8.toNat_inj, hdigit, hint]
  split_ifs <;> omega

theorem permOf_eq_some {rest : List UInt8} {perm : ℤ} : permOf rest = some (perm, fn) ↔
    ∃ d : ℕ, d ≤ 7 ∧ perm = d ∧ [space, digit d] <+: rest ∧ nameOf (rest.drop 2) = some fn := by
  match rest with
  | [] => simp [permOf]
  | [a] => simp [permOf]
  | a :: c :: rest =>
    simp only [permOf, List.cons_prefix_cons, List.nil_prefix, and_true, List.drop_succ_cons,
      List.drop_zero]
    constructor
    · intro h
      split_ifs at h with hperm
      obtain ⟨fn', hfn, hpair⟩ := Option.map_eq_some_iff.mp h
      obtain ⟨rfl, rfl⟩ := Prod.mk.inj hpair
      obtain ⟨ha, h0, h7⟩ := hperm
      have hd : c.toInt8.toInt - 48 = ((c.toInt8.toInt - 48).toNat : ℤ) := (Int.toNat_of_nonneg h0).symm
      exact ⟨_, by omega, hd, ⟨ha.symm, ((perm_eq_iff (by omega)).mp hd).symm⟩, hfn⟩
    · rintro ⟨d, hd, rfl, ⟨rfl, rfl⟩, hfn⟩
      have hperm := (perm_eq_iff hd).mpr rfl
      rw [hperm, if_pos ⟨rfl, by omega, by omega⟩, hfn]
      rfl

/-! ### The tests look at the line only -/

theorem fileArgument_terminated (h0 : (0 : UInt8) ∉ line) {k : ℕ} (hk : k ≤ line.length) :
    fileArgument (terminated line) k = some (nameOf (line.drop k)) := by
  have hdrop : (terminated line).drop k = terminated (line.drop k) := List.drop_append_of_le_length hk
  have hnul : (0 : UInt8) ∉ line.drop k := fun h => h0 (List.mem_of_mem_drop h)
  have hhead : (terminated line)[k]? = (terminated (line.drop k)).head? := by
    rw [← hdrop, List.head?_drop]
  have htail : (terminated line).drop (k + 1) = (terminated (line.drop k)).tail := by
    rw [← hdrop, List.tail_drop]
  unfold fileArgument
  rw [hhead, htail]
  generalize line.drop k = rest at hnul
  cases rest with
  | nil => rfl
  | cons c rest =>
    by_cases hc : c = space
    · have hskip := skip_terminated (b := space) (by decide) rest
      have hd : (0 : UInt8) ∉ rest.dropWhile fun c => c = space :=
        fun h => hnul (List.mem_cons_of_mem c ((List.dropWhile_suffix _).subset h))
      have hself : (terminated (c :: rest)).tail = terminated rest := rfl
      have hfirst : (terminated (c :: rest)).head? = some c := rfl
      rw [hself, hfirst]
      simp only [Option.bind_eq_bind, Option.bind_some, hc, if_true, hskip, nameOf]
      generalize (rest.dropWhile fun c => c = space) = fn at hd
      cases fn with
      | nil => rfl
      | cons d fn =>
        have hne : d ≠ 0 := fun h => hd (h ▸ List.mem_cons_self)
        have hfst : (terminated (d :: fn)).head? = some d := rfl
        rw [takeWhile_terminated hd, hfst]
        simp [hne]
    · have hfirst : (terminated (c :: rest)).head? = some c := rfl
      rw [hfirst]
      simp [hc, nameOf]

theorem chpermArguments_terminated (h0 : (0 : UInt8) ∉ line) (h : chpermWord <+: line) :
    chpermArguments (terminated line) = some (permOf (line.drop 6)) := by
  obtain ⟨rest, rfl⟩ := h
  have hdrop : (chpermWord ++ rest).drop 6 = rest := rfl
  have hsix : (terminated (chpermWord ++ rest))[6]? = (terminated rest)[0]? := rfl
  have hseven : (terminated (chpermWord ++ rest))[7]? = (terminated rest)[1]? := rfl
  unfold chpermArguments
  rw [hdrop, hsix, hseven]
  match rest with
  | [] => rfl
  | [a] =>
    by_cases ha : a = space
    · subst ha
      rfl
    · simp [terminated, permOf]
  | a :: c :: rest =>
    have hname := fileArgument_terminated (k := 8) h0 (by simp [chpermWord, ascii])
    have hrest : (chpermWord ++ a :: c :: rest).drop 8 = rest := rfl
    have hzero : (terminated (a :: c :: rest))[0]? = some a := rfl
    have hone : (terminated (a :: c :: rest))[1]? = some c := rfl
    rw [hname, hrest, hzero, hone]
    simp only [Option.bind_eq_bind, Option.bind_some, permOf]
    generalize c.toInt8.toInt - 48 = perm
    by_cases ha : a = space
    · by_cases hperm : 0 ≤ perm ∧ perm ≤ 7 <;> simp [ha, hperm]
    · simp [ha]

/-! ### The dispatch -/

/-- What the chain of comparisons comes to. -/
def replyOf (stdin : Stdin) (now : UInt32) (line : List UInt8) : Reply :=
  if line = questionMark then .usage
  else if line = quitWord then .quit
  else if line = listWord then .command .list
  else if createWord <+: line then orUnknown (.create · now) (nameOf (line.drop 6))
  else if removeWord <+: line then orUnknown .remove (nameOf (line.drop 6))
  else if chpermWord <+: line then orUnknown (fun a => .chperm a.1 a.2) (permOf (line.drop 6))
  else if readWord <+: line then orUnknown .read (nameOf (line.drop 4))
  else if writeWord <+: line then orUnknown (.write · stdin now) (nameOf (line.drop 5))
  else .unknown

variable (stdin : Stdin) (now : UInt32)

/-- The dispatch looks at the line up to its terminator only. -/
theorem dispatch_terminated (h0 : (0 : UInt8) ∉ line) :
    dispatch stdin now (terminated line) = some (replyOf stdin now line) := by
  have hword : ∀ word : List UInt8, (0 : UInt8) ∉ word →
      strcmpEq (terminated line) (terminated word) = some (decide (line = word)) :=
    fun word => strcmpEq_terminated h0
  have hprefix : ∀ word : List UInt8, (0 : UInt8) ∉ word →
      strncmpEq word.length (terminated line) (terminated word) = some (decide (word <+: line)) :=
    fun word => strncmpEq_terminated h0
  have hname : ∀ word : List UInt8, word <+: line →
      fileArgument (terminated line) word.length = some (nameOf (line.drop word.length)) :=
    fun word h => fileArgument_terminated h0 h.length_le
  have hcreate : strncmpEq 6 _ _ = _ := hprefix createWord (by decide)
  have hremove : strncmpEq 6 _ _ = _ := hprefix removeWord (by decide)
  have hchperm : strncmpEq 6 _ _ = _ := hprefix chpermWord (by decide)
  have hread : strncmpEq 4 _ _ = _ := hprefix readWord (by decide)
  have hwrite : strncmpEq 5 _ _ = _ := hprefix writeWord (by decide)
  unfold dispatch replyOf
  simp only [hword questionMark (by decide), hword quitWord (by decide), hword listWord (by decide),
    hcreate, hremove, hchperm, hread, hwrite, Option.bind_eq_bind, Option.bind_some,
    decide_eq_true_eq]
  split_ifs with _ _ _ hc hr hp hd hw
  · rfl
  · rfl
  · rfl
  · exact congrArg (Option.bind · _) (hname createWord hc)
  · exact congrArg (Option.bind · _) (hname removeWord hr)
  · exact congrArg (Option.bind · _) (chpermArguments_terminated h0 hp)
  · exact congrArg (Option.bind · _) (hname readWord hd)
  · exact congrArg (Option.bind · _) (hname writeWord hw)
  · rfl

/-- A line that starts with one word is not, and does not start with, a word of which neither
is a prefix of the other. -/
theorem not_start {v w : List UInt8} (hw : w <+: line) (hvw : ¬ v <+: w ∧ ¬ w <+: v) :
    ¬ v <+: line :=
  fun hv => (List.prefix_or_prefix_of_prefix hv hw).elim hvw.1 hvw.2

theorem ne_word {v w : List UInt8} (hw : w <+: line) (hvw : ¬ v <+: w ∧ ¬ w <+: v) :
    line ≠ v := by
  rintro rfl
  exact not_start hw hvw List.prefix_rfl

theorem orUnknown_eq {α : Type} {f : α → Command} {a : Option α} {r : Reply}
    (hr : r ≠ .unknown) : orUnknown f a = r ↔ ∃ b, a = some b ∧ .command (f b) = r := by
  cases a with
  | none => simp [orUnknown, hr.symm]
  | some b => simp [orUnknown]

/-- What the chain finds is what the line means. -/
theorem means_of_replyOf {r : Reply} (hr : r ≠ .unknown) (h : replyOf stdin now line = r) :
    Means stdin now line r := by
  unfold replyOf at h
  split_ifs at h with h1 h2 h3 hc hrm hp hd hw
  · exact h ▸ .usage h1
  · exact h ▸ .quit h2
  · exact h ▸ .list h3
  · obtain ⟨fn, hfn, rfl⟩ := (orUnknown_eq hr).mp h
    exact .create (fileCommand_iff.mpr ⟨hc, hfn⟩)
  · obtain ⟨fn, hfn, rfl⟩ := (orUnknown_eq hr).mp h
    exact .remove (fileCommand_iff.mpr ⟨hrm, hfn⟩)
  · obtain ⟨⟨perm, fn⟩, hfn, rfl⟩ := (orUnknown_eq hr).mp h
    obtain ⟨d, hd, rfl, hpre, hfn⟩ := permOf_eq_some.mp hfn
    refine .chperm hd (fileCommand_iff.mpr ⟨?_, ?_⟩)
    · obtain ⟨rest, rfl⟩ := hp
      exact (List.prefix_append_right_inj _).mpr hpre
    · rw [List.drop_drop] at hfn
      exact hfn
  · obtain ⟨fn, hfn, rfl⟩ := (orUnknown_eq hr).mp h
    exact .read (fileCommand_iff.mpr ⟨hd, hfn⟩)
  · obtain ⟨fn, hfn, rfl⟩ := (orUnknown_eq hr).mp h
    exact .write (fileCommand_iff.mpr ⟨hw, hfn⟩)
  · exact absurd h.symm hr

/-- The chain finds what the line means: no word before the right one is a prefix of the line. -/
theorem replyOf_of_means {r : Reply} (h : Means stdin now line r) :
    replyOf stdin now line = r := by
  cases h with
  | usage h => rw [h]; rfl
  | quit h => rw [h]; rfl
  | list h => rw [h]; rfl
  | create h =>
    obtain ⟨hw, hfn⟩ := fileCommand_iff.mp h
    rw [replyOf, if_neg (ne_word hw (by decide)), if_neg (ne_word hw (by decide)),
      if_neg (ne_word hw (by decide)), if_pos hw]
    exact congrArg _ hfn
  | remove h =>
    obtain ⟨hw, hfn⟩ := fileCommand_iff.mp h
    rw [replyOf, if_neg (ne_word hw (by decide)), if_neg (ne_word hw (by decide)),
      if_neg (ne_word hw (by decide)), if_neg (not_start hw (by decide)), if_pos hw]
    exact congrArg _ hfn
  | @chperm fn d hd h =>
    obtain ⟨hlong, hfn⟩ := fileCommand_iff.mp h
    have hw : chpermWord <+: line := (List.prefix_append _ _).trans hlong
    have hperm : permOf (line.drop 6) = some ((d : ℤ), fn) := by
      obtain ⟨rest, rfl⟩ := hlong
      exact permOf_eq_some.mpr ⟨d, hd, rfl, List.prefix_append _ rest, hfn⟩
    rw [replyOf, if_neg (ne_word hw (by decide)), if_neg (ne_word hw (by decide)),
      if_neg (ne_word hw (by decide)), if_neg (not_start hw (by decide)),
      if_neg (not_start hw (by decide)), if_pos hw]
    exact congrArg _ hperm
  | read h =>
    obtain ⟨hw, hfn⟩ := fileCommand_iff.mp h
    rw [replyOf, if_neg (ne_word hw (by decide)), if_neg (ne_word hw (by decide)),
      if_neg (ne_word hw (by decide)), if_neg (not_start hw (by decide)),
      if_neg (not_start hw (by decide)), if_neg (not_start hw (by decide)), if_pos hw]
    exact congrArg _ hfn
  | write h =>
    obtain ⟨hw, hfn⟩ := fileCommand_iff.mp h
    rw [replyOf, if_neg (ne_word hw (by decide)), if_neg (ne_word hw (by decide)),
      if_neg (ne_word hw (by decide)), if_neg (not_start hw (by decide)),
      if_neg (not_start hw (by decide)), if_neg (not_start hw (by decide)),
      if_neg (not_start hw (by decide)), if_pos hw]
    exact congrArg _ hfn

theorem replyOf_eq_iff {r : Reply} (hr : r ≠ .unknown) :
    replyOf stdin now line = r ↔ Means stdin now line r :=
  ⟨means_of_replyOf stdin now hr, replyOf_of_means stdin now⟩

/-- What `scanf` puts into `cmd` for a line that fits. -/
structure Legal (line : List UInt8) : Prop where
  pos : 1 ≤ line.length
  le : line.length ≤ 255
  noNul : (0 : UInt8) ∉ line
  noNewline : (10 : UInt8) ∉ line

/-- One pass of the loop performs the reply to a line. -/
theorem browseLine_legal (s : Shell) (h : Legal line) : browseLine o s stdin now line =
    some (perform o s line (replyOf stdin now line)) := by
  rw [browseLine, dispatch_terminated stdin now h.noNul]
  rfl

/-- The state and the output of a command, after which the loop goes on. -/
def goesOn (r : Shell × List Output) : Shell × List Output × Bool := (r.1, r.2, false)

/-- The interpreter accepts exactly its grammar. On a legal line the tests stay inside the
line and come to one reply: what the line means, or the report where it means nothing. The
reply is what one pass of the loop performs: the usage and the report leave the shell as it
is, `quit` ends the loop, and a command is the function of its word for its argument. -/
theorem browseLine_grammar (s : Shell) (h : Legal line) :
    (∀ r, r ≠ .unknown → (dispatch stdin now (terminated line) = some r ↔ Means stdin now line r)) ∧
    (dispatch stdin now (terminated line) = some .unknown ↔ ∀ r, ¬ Means stdin now line r) ∧
    (∃ r, dispatch stdin now (terminated line) = some r ∧
      browseLine o s stdin now line = some (perform o s line r) ∧
      (r = .unknown → browseLine o s stdin now line =
        some (s, .text "Unknown/Incorrect command: %s\n" line :: usage, false))) ∧
    (line = questionMark → browseLine o s stdin now line = some (s, usage, false)) ∧
    (line = quitWord → browseLine o s stdin now line = some (s, [], true)) ∧
    (line = listWord → browseLine o s stdin now line = some (goesOn (sfsList o s))) ∧
    (∀ fn, FileCommand createWord line fn →
      browseLine o s stdin now line = some (goesOn (sfsCreate o s fn now))) ∧
    (∀ fn, FileCommand removeWord line fn →
      browseLine o s stdin now line = some (goesOn (sfsRemove o s fn))) ∧
    (∀ (d : ℕ) fn, d ≤ 7 → FileCommand (chpermWord ++ [space, digit d]) line fn →
      browseLine o s stdin now line = some (goesOn (sfsChperm o s fn d))) ∧
    (∀ fn, FileCommand readWord line fn →
      browseLine o s stdin now line = some (goesOn (sfsRead o s fn))) ∧
    (∀ fn, FileCommand writeWord line fn →
      browseLine o s stdin now line = some (goesOn (sfsWrite o s fn stdin now))) ∧
    ((∀ r, ¬ Means stdin now line r) → browseLine o s stdin now line =
      some (s, .text "Unknown/Incorrect command: %s\n" line :: usage, false)) := by
  have hd := dispatch_terminated stdin now h.noNul
  have hmeans : ∀ r, r ≠ .unknown →
      (dispatch stdin now (terminated line) = some r ↔ Means stdin now line r) := by
    intro r hr
    rw [hd, Option.some.injEq, replyOf_eq_iff stdin now hr]
  have hunknown : dispatch stdin now (terminated line) = some .unknown ↔
      ∀ r, ¬ Means stdin now line r := by
    constructor
    · intro hu r hm
      have hr : r ≠ .unknown := by
        rintro rfl
        cases hm
      have hu' := ((hmeans r hr).mpr hm).symm.trans hu
      exact hr (Option.some.inj hu')
    · intro hno
      by_contra hu
      rw [hd, Option.some.injEq] at hu
      exact hno _ ((replyOf_eq_iff stdin now hu).mp rfl)
  have hperform : ∀ r, dispatch stdin now (terminated line) = some r →
      browseLine o s stdin now line = some (perform o s line r) := by
    intro r hr
    rw [browseLine_legal o stdin now s h, Option.some.inj (hd.symm.trans hr)]
  have hline : ∀ r, Means stdin now line r →
      browseLine o s stdin now line = some (perform o s line r) := by
    intro r hm
    refine hperform r ((hmeans r ?_).mpr hm)
    rintro rfl
    cases hm
  refine ⟨hmeans, hunknown,
    ⟨_, hd, hperform _ hd, fun hu => hperform .unknown (hu ▸ hd)⟩,
    fun h => hline _ (.usage h), fun h => hline _ (.quit h), fun h => hline _ (.list h),
    fun _ h => hline _ (.create h), fun _ h => hline _ (.remove h),
    fun _ _ hd h => hline _ (.chperm hd h), fun _ h => hline _ (.read h),
    fun _ h => hline _ (.write h), fun h => hperform .unknown (hunknown.mpr h)⟩

/-- `chperm 5  a`. -/
def sampleLine : List UInt8 := ascii ['c', 'h', 'p', 'e', 'r', 'm', ' ', '5', ' ', ' ', 'a']

/-- A shell on an empty partition. -/
def blankShell : Shell :=
  ⟨⟨fun _ => 0, 0⟩, .ofBytes fun _ => 0, ⟨0, fun _ => 0, false⟩, fun _ => 0⟩

theorem browseLine_grammar_sample :
    dispatch [] 0 (terminated sampleLine) = some (.command (.chperm 5 (ascii ['a']))) ∧
    browseLine .bits64 blankShell [] 0 sampleLine =
      some (goesOn (sfsChperm .bits64 blankShell (ascii ['a']) 5)) := by
  have hlegal : Legal sampleLine := ⟨by decide, by decide, by decide, by decide⟩
  have hfile : FileCommand (chpermWord ++ [space, digit 5]) sampleLine (ascii ['a']) :=
    ⟨⟨1, by decide⟩, by decide, by decide⟩
  obtain ⟨hmeans, _, _, _, _, _, _, _, hchperm, _⟩ :=
    browseLine_grammar .bits64 [] 0 blankShell hlegal
  exact ⟨(hmeans _ (by simp)).mpr (.chperm (by decide) hfile), hchperm 5 _ (by decide) hfile⟩

/-! ### Sessions -/

/-- The commands that the lines of a session stand for, up to a `quit`. -/
def commands : List Typed → List Command
  | [] => []
  | t :: ts =>
    if t.line = [] then commands ts
    else
      match replyOf t.stdin t.now t.line with
      | .quit => []
      | .command c => c :: commands ts
      | .usage => commands ts
      | .unknown => commands ts

/-- A session of empty and legal lines runs its commands, and stays inside each line. -/
theorem browseLoop_eq {ts : List Typed} (h : ∀ t ∈ ts, t.line = [] ∨ Legal t.line) (s : Shell) :
    (browseLoop o ts s).map Prod.fst = some (Run.exec (step o) s (commands ts)) := by
  induction ts generalizing s with
  | nil => rfl
  | cons t ts ih =>
    obtain ⟨ht, hts⟩ := List.forall_mem_cons.mp h
    by_cases hnil : t.line = []
    · obtain ⟨r, hr, hs⟩ := Option.map_eq_some_iff.mp (ih hts s)
      rw [browseLoop, commands, if_pos hnil, if_pos hnil, hr, ← hs]
      rfl
    · rw [browseLoop, commands, if_neg hnil, if_neg hnil,
        browseLine_legal o t.stdin t.now s (ht.resolve_left hnil)]
      cases replyOf t.stdin t.now t.line with
      | quit => rfl
      | usage =>
        obtain ⟨r, hr, hs⟩ := Option.map_eq_some_iff.mp (ih hts s)
        simp [perform, hr, hs]
      | command c =>
        obtain ⟨r, hr, hs⟩ := Option.map_eq_some_iff.mp (ih hts (c.run o s).1)
        simp [perform, hr, hs, step]
      | unknown =>
        obtain ⟨r, hr, hs⟩ := Option.map_eq_some_iff.mp (ih hts s)
        simp [perform, hr, hs]

end Linuxpedia.RealFs
