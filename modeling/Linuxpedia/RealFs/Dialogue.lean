import Linuxpedia.RealFs.Interpreter
import Linuxpedia.RealFs.Hosts

/-! The v3.0 shell as its user sees it: lines go in and texts come out. On a formatted
partition, session after session, what is printed at each prompt is what one store of named
files has to say to the line, and the next session starts from the files that the last one
left. -/

namespace Linuxpedia.RealFs

open Lib Sfs

/-! ### The program -/

/-- What `browse_sfs` prints before the first prompt, and behind it. -/
structure Screen where
  banner : List (String × Option ℤ)
  out : List Output

/-- The head of `browse_sfs`. -/
def banner (sb : SfsSuperBlock) : List (String × Option ℤ) :=
  [("Welcome to SFS Browsing Shell v3.0\n\n", none),
    ("Block size     : %d bytes\n", some (asInt sb.blockSize)),
    ("Partition size : %d blocks\n", some (asInt sb.partitionSize)),
    ("File entry size: %d bytes\n", some (asInt sb.entrySize)),
    ("Entry tbl size : %d blocks\n", some (asInt sb.entryTableSize)),
    ("Entry count    : %d\n", some (asInt sb.entryCount)), ("\n", none)]

/-- A session: the program is started on the device, reads the lines and ends. -/
def browseSfs (o : OffT) (dev : Store) (ts : List Typed) : Option (Store × Screen) := do
  let s ← main o dev
  let r ← browseLoop o ts s
  return (r.1.dev, ⟨banner s.sb, r.2⟩)

/-- The device after a session; a program that cannot start leaves it alone. -/
def afterSession (dev : Store) (ts : List Typed) : Store :=
  (browseSfs .bits32 dev ts).elim dev Prod.fst

/-! ### The dialogue -/

/-- What the files have to say to a line, whether that ends the session, and the files then. -/
inductive Turn (cap : Capacity) (F : Nodes) (t : Typed) : List Output → Bool → Nodes → Prop
  | empty (h : t.line = []) : Turn cap F t [] false F
  | usage (h : Means t.stdin t.now t.line .usage) : Turn cap F t usage false F
  | quit (h : Means t.stdin t.now t.line .quit) : Turn cap F t [] true F
  | command {c : Command} {out : List Output} {F' : Nodes}
      (h : Means t.stdin t.now t.line (.command c)) (hc : F.Command cap c out F') :
      Turn cap F t out false F'
  | unknown (hne : t.line ≠ []) (h : ∀ r, ¬ Means t.stdin t.now t.line r) :
      Turn cap F t (.text "Unknown/Incorrect command: %s\n" t.line :: RealFs.usage) false F

/-- The lines of a session up to a `quit` or the end of the input, each behind a prompt. -/
inductive Dialogue (cap : Capacity) : Nodes → List Typed → List Output → Nodes → Prop
  | endOfInput (F : Nodes) : Dialogue cap F [] [.text " $> " [], .text "\n" []] F
  | last {F F' : Nodes} {t : Typed} {ts : List Typed} {out : List Output}
      (h : Turn cap F t out true F') : Dialogue cap F (t :: ts) (.text " $> " [] :: out) F'
  | next {F F' F'' : Nodes} {t : Typed} {ts : List Typed} {out rest : List Output}
      (h : Turn cap F t out false F') (hrest : Dialogue cap F' ts rest F'') :
      Dialogue cap F (t :: ts) (.text " $> " [] :: out ++ rest) F''

/-- The lines of a session are empty or fit the buffer, and each command is one that the
store is asked at the time. -/
def LegalSession (sb : SfsSuperBlock) (dev : Store) (ts : List Typed) : Prop :=
  (∀ t ∈ ts, t.line = [] ∨ Legal t.line) ∧
  ∀ s, main .bits32 dev = some s → Run.Along (step .bits32)
    (fun s c => s.mount.nodes.AllowedCommand sb.capacity c) s (commands ts)

/-! ### A session -/

variable {sb : SfsSuperBlock} {F : Nodes}

/-- What a line comes to, as the grammar has it. -/
theorem means_replyOf {t : Typed} {r : Reply} (hr : r ≠ .unknown)
    (h : replyOf t.stdin t.now t.line = r) : Means t.stdin t.now t.line r :=
  (replyOf_eq_iff t.stdin t.now hr).mp h

theorem not_means {t : Typed} (h : replyOf t.stdin t.now t.line = .unknown) (r : Reply) :
    ¬ Means t.stdin t.now t.line r := by
  intro hm
  have hr := replyOf_of_means t.stdin t.now hm
  rw [h] at hr
  subst hr
  cases hm

/-- What holds along the commands of a session holds at its first line and along the rest. -/
theorem along_commands {P : Shell → Command → Prop} {s : Shell} {t : Typed} {ts : List Typed}
    (hne : t.line ≠ []) (h : Run.Along (step .bits32) P s (commands (t :: ts))) :
    (∀ c, replyOf t.stdin t.now t.line = .command c → P s c) ∧
    ((perform .bits32 s t.line (replyOf t.stdin t.now t.line)).2.2 = false →
      Run.Along (step .bits32) P (perform .bits32 s t.line (replyOf t.stdin t.now t.line)).1
        (commands ts)) := by
  rw [commands, if_neg hne] at h
  cases hreply : replyOf t.stdin t.now t.line with
  | quit => simp [perform]
  | usage =>
    rw [hreply] at h
    simpa [perform] using h
  | unknown =>
    rw [hreply] at h
    simpa [perform] using h
  | command c =>
    rw [hreply] at h
    simpa [perform, step] using h

/-- One pass of the loop takes a turn of the dialogue. -/
theorem Serves.turn {s : Shell} (h : Serves sb s F) (ht : F.Tidy) {t : Typed} (hne : t.line ≠ [])
    (hc : ∀ c, replyOf t.stdin t.now t.line = .command c → F.AllowedCommand sb.capacity c) :
    ∃ F', Turn sb.capacity F t (perform .bits32 s t.line (replyOf t.stdin t.now t.line)).2.1
        (perform .bits32 s t.line (replyOf t.stdin t.now t.line)).2.2 F' ∧
      Serves sb (perform .bits32 s t.line (replyOf t.stdin t.now t.line)).1 F' ∧ F'.Tidy := by
  cases hreply : replyOf t.stdin t.now t.line with
  | quit => exact ⟨F, .quit (means_replyOf (by simp) hreply), h, ht⟩
  | usage => exact ⟨F, .usage (means_replyOf (by simp) hreply), h, ht⟩
  | unknown => exact ⟨F, .unknown hne (not_means hreply), h, ht⟩
  | command c =>
    obtain ⟨F', hcommand, hs⟩ := h.run ht (hc c hreply)
    exact ⟨F', .command (means_replyOf (by simp) hreply) hcommand, hs, ht.command hcommand⟩

/-- The loop of `browse_sfs` holds a dialogue with the files. -/
theorem Serves.browseLoop {s : Shell} (h : Serves sb s F) (ht : F.Tidy) {ts : List Typed}
    (hlines : ∀ t ∈ ts, t.line = [] ∨ Legal t.line)
    (hl : Run.Along (step .bits32) (fun s c => s.mount.nodes.AllowedCommand sb.capacity c) s
      (commands ts)) :
    ∃ r F', RealFs.browseLoop .bits32 ts s = some r ∧ Dialogue sb.capacity F ts r.2 F' ∧
      Serves sb r.1 F' ∧ F'.Tidy := by
  induction ts generalizing s F with
  | nil => exact ⟨_, F, rfl, .endOfInput F, h, ht⟩
  | cons t ts ih =>
    obtain ⟨htl, hlines⟩ := List.forall_mem_cons.mp hlines
    rw [RealFs.browseLoop]
    by_cases hnil : t.line = []
    · rw [commands, if_pos hnil] at hl
      obtain ⟨r, F', hr, hd, hs, ht'⟩ := ih h ht hlines hl
      rw [if_pos hnil, hr]
      exact ⟨_, F', rfl, .next (.empty hnil) hd, hs, ht'⟩
    · obtain ⟨hc, hrest⟩ := along_commands hnil hl
      rw [h.serves.nodes] at hc
      obtain ⟨F₁, hturn, hs₁, ht₁⟩ := h.turn ht hnil hc
      rw [if_neg hnil, browseLine_legal .bits32 t.stdin t.now s (htl.resolve_left hnil)]
      generalize perform .bits32 s t.line (replyOf t.stdin t.now t.line) = p at hturn hs₁ hrest ⊢
      obtain ⟨s₁, out, done⟩ := p
      cases done with
      | true => exact ⟨_, F₁, rfl, .last hturn, hs₁, ht₁⟩
      | false =>
        obtain ⟨r, F', hr, hd, hs, ht'⟩ := ih hs₁ ht₁ hlines (hrest rfl)
        refine ⟨(r.1, .text " $> " [] :: out ++ r.2), F', ?_, .next hturn hd, hs, ht'⟩
        simp [hr]

/-- A session on a partition that holds the files `F`. -/
theorem Hosted.session (hsmall : sb.partitionSize.toNat ≤ 2 ^ 22) {dev : Store}
    (h : Hosted sb F (.idle dev)) (ht : F.Tidy) {ts : List Typed} (hts : LegalSession sb dev ts) :
    ∃ out F', browseSfs .bits32 dev ts = some (afterSession dev ts, ⟨banner sb, out⟩) ∧
      Dialogue sb.capacity F ts out F' ∧ Hosted sb F' (.idle (afterSession dev ts)) ∧ F'.Tidy := by
  obtain ⟨m, rfl, hm⟩ := h
  obtain ⟨s, hmain, hs⟩ := main_serves hm hsmall
  obtain ⟨r, F', hr, hd, hr', ht'⟩ := hs.browseLoop ht hts.1 (hts.2 s hmain)
  have hsession : browseSfs .bits32 m.dev ts = some (r.1.dev, ⟨banner s.sb, r.2⟩) := by
    rw [browseSfs, hmain, Option.bind_eq_bind, Option.bind_some, hr]
    rfl
  have hafter : afterSession m.dev ts = r.1.dev := by
    rw [afterSession, hsession]
    rfl
  have hbanner : banner s.sb = banner sb := congrArg banner hs.serves.sb_eq
  rw [hsession, hafter, hbanner]
  exact ⟨r.2, F', rfl, hd, ⟨r.1.mount, rfl, hr'.serves⟩, ht'⟩

/-! ### Sessions -/

/-- The files on a partition that no program has. -/
def filesOn (dev : Store) : Nodes := (Host.idle dev).mount.nodes

/-- Session after session on a formatted partition, the shell prints what one store of named
files, empty at first, says to the lines typed, and never looks behind a line. -/
theorem sessions_are_dialogues {bytes : ℕ} (h512 : 512 ≤ bytes) (hP : bytes / 512 ≤ 2 ^ 22)
    (dev stack : Store) (sessions : List (List Typed))
    (hl : Run.Along afterSession (LegalSession (formatSb bytes)) (formatRealSfs bytes dev stack)
      sessions) :
    filesOn (formatRealSfs bytes dev stack) = (fun _ => none) ∧
    Run.Along afterSession (fun dev ts => ∃ out,
      browseSfs .bits32 dev ts =
        some (afterSession dev ts, ⟨banner (formatSb bytes), out⟩) ∧
      Dialogue (formatSb bytes).capacity (filesOn dev) ts out (filesOn (afterSession dev ts)))
      (formatRealSfs bytes dev stack) sessions := by
  have hsmall := formatSb_le hP
  have hstep : ∀ (dev : Store) (ts : List Typed), Host.Tidy (formatSb bytes) (.idle dev) →
      LegalSession (formatSb bytes) dev ts →
      Host.Tidy (formatSb bytes) (.idle (afterSession dev ts)) := by
    rintro dev ts ⟨F, hF, ht⟩ hts
    obtain ⟨_, F', _, _, hF', ht'⟩ := hF.session hsmall ht hts
    exact ⟨F', hF', ht'⟩
  refine ⟨(hosted_format h512 hP dev stack).nodes,
    Run.along_of_inv hstep ?_ (hostTidy_format h512 hP dev stack) hl⟩
  rintro dev ts ⟨F, hF, ht⟩ hts
  obtain ⟨out, F', hsession, hd, hF', _⟩ := hF.session hsmall ht hts
  refine ⟨out, hsession, ?_⟩
  unfold filesOn
  rw [hF.nodes, hF'.nodes]
  exact hd

instance (line : List UInt8) : Decidable (Legal line) :=
  decidable_of_iff (1 ≤ line.length ∧ line.length ≤ 255 ∧ (0 : UInt8) ∉ line ∧ (10 : UInt8) ∉ line)
    ⟨fun ⟨h1, h2, h3, h4⟩ => ⟨h1, h2, h3, h4⟩, fun h => ⟨h.pos, h.le, h.noNul, h.noNewline⟩⟩

/-- `create a` and `quit`. -/
def createLines : List Typed :=
  [⟨createWord ++ [space, 97], [], 5⟩, ⟨quitWord, [], 6⟩]

/-- `write a` with a block of ones, an empty line, a word that is no command, and `read a`. -/
def writeLines : List Typed :=
  [⟨writeWord ++ [space, 97], [List.replicate 512 1], 7⟩, ⟨[], [], 8⟩, ⟨[97], [], 9⟩,
    ⟨readWord ++ [space, 97], [], 10⟩]

theorem legalSession_of {sb : SfsSuperBlock} {dev : Store} {ts : List Typed} {s : Shell}
    (hlines : ∀ t ∈ ts, t.line = [] ∨ Legal t.line) (hs : main .bits32 dev = some s)
    (h : Run.Along (step .bits32) (fun s c => s.mount.nodes.AllowedCommand sb.capacity c) s
      (commands ts)) : LegalSession sb dev ts := by
  refine ⟨hlines, fun s' hs' => ?_⟩
  rw [hs] at hs'
  exact Option.some.inj hs' ▸ h

/-- A file is created in one session and written and read in the next. -/
theorem sessions_are_dialogues_sample : Run.Along afterSession (fun dev ts => ∃ out,
    browseSfs .bits32 dev ts = some (afterSession dev ts, ⟨banner (formatSb 5120), out⟩) ∧
    Dialogue (formatSb 5120).capacity (filesOn dev) ts out (filesOn (afterSession dev ts)))
    (formatRealSfs 5120 (fun _ => 9) fun _ => 5) [createLines, writeLines] :=
  (sessions_are_dialogues (by decide) (by decide) (fun _ => 9) (fun _ => 5)
    [createLines, writeLines]
    ⟨legalSession_of (by decide) rfl
        ⟨⟨by decide, nodes_eq_none.mpr (by decide +kernel)⟩, trivial⟩,
      legalSession_of (by decide) rfl
        ⟨allowed_write (h := .shell _) 7 (by decide +kernel) (by decide +kernel), trivial, trivial⟩,
      trivial⟩).2

end Linuxpedia.RealFs
