import FloppyGuard.Lib.Run
import FloppyGuard.Lib.Text
import Mathlib.Logic.Function.Basic

/-! The renewal of a broken lineage: `runCertbotRenewal`, the backup of the directories of a
certificate, and the recovery of a backup that was left behind. A rename and the removal of a tree
are one step each. -/
namespace FloppyGuard.Certificates.RenewalBackup

/-- A file is known by its inode wherever it is moved. -/
structure File where
  inode : ℕ
  content : String
deriving DecidableEq

/-- `link lineage name`: a link to `archive/<lineage>/<name>`; a link to any other place counts as
the file there. -/
inductive Node
  | file (f : File)
  | link (lineage name : String)
deriving DecidableEq

inductive Item
  | dir (nodes : String → Option Node)
  | conf (text : String)

def Item.node : Item → String → Option Node
  | dir nodes, name => nodes name
  | conf _, _ => none

inductive Sub
  | archive
  | live
  | renewal
  | certbotRenewal
deriving DecidableEq

/-- An entry of `archive`, of `live`, of `renewal`, or of certbot's own `renewal`. -/
abbrev Entry := Sub × String

abbrev Tree := Entry → Option Item

/-- Certbot's `renewal` is that of the certificates, a directory of its own, or not there. -/
inductive ConfigDir
  | shared
  | own
  | missing
deriving DecidableEq

structure World where
  id : ℕ
  configDir : ConfigDir

def lineagePrefix (id : ℕ) : String := "npm-" ++ toString id

/-- The entries that a renewal of the certificate moves aside. -/
def ofCertificate (id : ℕ) (e : Entry) : Bool :=
  let versioned := (lineagePrefix id ++ "-").toList.isPrefixOf e.2.toList
  match e.1 with
  | .archive | .live => e.2 = lineagePrefix id || versioned
  | .renewal | .certbotRenewal =>
    (e.2 = lineagePrefix id ++ ".conf" || versioned) && ".conf".toList.isSuffixOf e.2.toList

/-- A link is followed once: there are only files in an archive. -/
def follow (place : Tree) : Node → Option File
  | .file f => some f
  | .link lineage name => (place (.archive, lineage)).bind fun item => (item.node name).bind fun
    | .file f => some f
    | .link _ _ => none

/-- The file that `live/<lineage>/fullchain.pem` resolves to. -/
def resolve (place : Tree) (lineage : String) : Option File :=
  (place (.live, lineage)).bind fun item => (item.node "fullchain.pem").bind (follow place)

def liveUsable (place : Tree) (lineage : String) : Bool :=
  (resolve place lineage).any (·.content ≠ "")

namespace World

variable (w : World)

def lineage : String := lineagePrefix w.id

abbrev liveDir : Entry := (.live, w.lineage)

abbrev archiveDir : Entry := (.archive, w.lineage)

def mine (e : Entry) : Bool := ofCertificate w.id e

/-- `lineageIsIntact` -/
def lineageIsIntact (place : Tree) : Bool :=
  let conf := lineagePrefix w.id ++ ".conf"
  (match w.configDir with
    | .shared => (place (.renewal, conf)).isSome
    | .own => (place (.certbotRenewal, conf)).isSome
    | .missing => false) &&
    (resolve place w.lineage).isSome

end World

/-- What the program is at: the number of directories it has listed, and the entries still to do. -/
inductive Phase
  | backing (listed : ℕ) (todo entries : List Entry)
  | certbot (entries : List Entry)
  | restoring (todo : List Entry)
  | discarding
  /-- crashed -/
  | down
  | recovering (listed : ℕ) (todo : List Entry)
  | over
deriving DecidableEq

/-- `made`: the directories that certbot has made; `written`: the certificate that it has written
completely. -/
structure State where
  place : Tree
  backup : Tree
  phase : Phase
  made : List Entry
  written : Option File

def backupOrder : List Sub := [.archive, .live, .renewal, .certbotRenewal]

def recoveryOrder : List Sub := [.live, .archive, .renewal, .certbotRenewal]

namespace State

variable (s : State)

/-- `renameSync` into the backup. -/
def moveAside (e : Entry) : State :=
  { s with
    place := Function.update s.place e none, backup := Function.update s.backup e (s.place e) }

/-- `rmSync` -/
def remove (e : Entry) : State := { s with place := Function.update s.place e none }

/-- `renameSync` out of the backup. -/
def putBack (e : Entry) : State :=
  { s with
    place := Function.update s.place e (s.backup e), backup := Function.update s.backup e none }

end State

/-- An entry of a stale backup stays where it is if what stands in its place is usable. -/
def keep (place : Tree) (e : Entry) : Bool :=
  (place e).isSome && match e.1 with
    | .live | .archive => liveUsable place e.2
    | .renewal | .certbotRenewal => true

/-- The next step of the program. -/
def work (s : State) : Option State :=
  match s.phase with
  | .backing listed (e :: todo) entries =>
    some { s.moveAside e with phase := .backing listed todo (entries ++ [e]) }
  | .backing listed [] entries =>
    if listed = backupOrder.length then some { s with phase := .certbot entries } else none
  | .restoring (e :: todo) =>
    if (s.place e).isSome then some (s.remove e)
    else some { s.putBack e with phase := .restoring todo }
  | .restoring [] | .discarding => some { s with backup := fun _ => none, phase := .over }
  | .recovering listed (e :: todo) =>
    if keep s.place e then some { s with phase := .recovering listed todo }
    else if (s.place e).isSome then some (s.remove e)
    else some { s.putBack e with phase := .recovering listed todo }
  | .recovering listed [] =>
    if listed = recoveryOrder.length then some { s with backup := fun _ => none, phase := .over }
    else none
  | .certbot _ | .down | .over => none

/-- What certbot does: the directories of a lineage, its link, its files with `fullchain1.pem` as
the last one, and confs. -/
inductive Certbot
  | dir (e : Entry)
  | link (lineage : String)
  | write (lineage name : String) (f : File)
  | conf (e : Entry) (text : String)

def Certbot.names : List String := ["cert1.pem", "privkey1.pem", "chain1.pem"]

def emptyDir : Item := .dir fun _ => none

def Item.withNode (item : Item) (name : String) (node : Node) : Item :=
  .dir (Function.update item.node name (some node))

def liveLink (lineage : String) : Item :=
  emptyDir.withNode "fullchain.pem" (.link lineage "fullchain1.pem")

def State.setPlace (s : State) (e : Entry) (item : Item) : State :=
  { s with place := Function.update s.place e (some item) }

/-- Certbot takes no name that is in use, and writes `fullchain1.pem` when the link to it is there.
-/
inductive CertbotStep (w : World) (s : State) : Certbot → State → Prop
  | dir {e : Entry} (hsub : e.1 = .archive ∨ e.1 = .live) (hmine : w.mine e)
      (hnone : s.place e = none) :
      CertbotStep w s (.dir e) { s.setPlace e emptyDir with made := e :: s.made }
  | link {lineage : String} (hmade : (.live, lineage) ∈ s.made) :
      CertbotStep w s (.link lineage) (s.setPlace (.live, lineage) (liveLink lineage))
  | write {lineage name : String} {f : File} {item : Item} (hmade : (.archive, lineage) ∈ s.made)
      (hitem : s.place (.archive, lineage) = some item) (hname : name ∈ Certbot.names) :
      CertbotStep w s (.write lineage name f)
        (s.setPlace (.archive, lineage) (item.withNode name (.file f)))
  | writeLast {lineage : String} {f : File} {item : Item} (hmade : (.archive, lineage) ∈ s.made)
      (hitem : s.place (.archive, lineage) = some item)
        (hlink : s.place (.live, lineage) = some (liveLink lineage))
      (hcontent : f.content ≠ "") : CertbotStep w s (.write lineage "fullchain1.pem" f)
        { s.setPlace (.archive, lineage) (item.withNode "fullchain1.pem" (.file f)) with
          written := if lineage = w.lineage then some f else s.written }
  | conf {e : Entry} {text : String} (hsub : e.1 = .renewal ∨ e.1 = .certbotRenewal)
      (hmine : w.mine e)
      (hnone : s.place e = none) : CertbotStep w s (.conf e text) (s.setPlace e (.conf text))

inductive Act
  | work
  /-- the entries of the next directory, in any order -/
  | list (es : List Entry)
  | certbot (c : Certbot)
  /-- `ok`: certbot ends without an error; `config`: certbot's own directory has the certificate too
  -/
  | exit (ok config : Bool)
  | crash
  | recover

/-- The entries that the backup takes from a directory. -/
def Listed (w : World) (place : Tree) (sub : Sub) (es : List Entry) : Prop :=
  es.Nodup ∧ ∀ e, e ∈ es ↔
    e.1 = sub ∧ w.mine e ∧ (place e).isSome ∧ (e.1 = .certbotRenewal → w.configDir = .own)

inductive Step (w : World) (s : State) : Act → State → Prop
  | work {t : State} (h : RenewalBackup.work s = some t) : Step w s .work t
  | listBackup {listed : ℕ} {entries es : List Entry} {sub : Sub}
      (hphase : s.phase = .backing listed [] entries)
      (hsub : backupOrder[listed]? = some sub) (hes : Listed w s.place sub es) :
      Step w s (.list es) { s with phase := .backing (listed + 1) es entries }
  | certbot {c : Certbot} {t : State} {entries : List Entry} (hphase : s.phase = .certbot entries)
      (h : CertbotStep w s c t) : Step w s (.certbot c) t
  | exit {entries : List Entry} {ok config : Bool} (hphase : s.phase = .certbot entries) : Step w s
      (.exit ok config)
      { s with
        phase := if ok && (resolve s.place w.lineage).isSome && config then .discarding
          else .restoring entries }
  | crash (hphase : s.phase ≠ .over) : Step w s .crash { s with phase := .down }
  | recover (hphase : s.phase = .down) : Step w s .recover { s with phase := .recovering 0 [] }
  | listRecovery {listed : ℕ} {es : List Entry} {sub : Sub}
      (hphase : s.phase = .recovering listed [])
      (hsub : recoveryOrder[listed]? = some sub) (hes : es.Nodup ∧ ∀ e, e ∈ es ↔ e.1 = sub ∧
        (s.backup e).isSome) :
      Step w s (.list es) { s with phase := .recovering (listed + 1) es }

/-- A broken lineage with anything in the directories, and no backup. -/
structure Start (w : World) where
  place : Tree
  broken : w.lineageIsIntact place = false

variable {w : World} (start : Start w)

def initial : State := ⟨start.place, fun _ => none, .backing 0 [] [], [], none⟩

/-- When the renewal or the recovery is through, a certificate that was there is there again, or one
that certbot has completely written; and the entries of other certificates are never touched. -/
def Kept (s : State) : Prop :=
  (s.phase = .over → ∀ f, resolve start.place w.lineage = some f → f.content ≠ "" →
    ∃ g, resolve s.place w.lineage = some g ∧ g.content ≠ "" ∧ (g = f ∨ s.written = some g)) ∧
  ∀ id e, id ≠ w.id → ofCertificate id e → s.place e = start.place e

/-- A link into the archives of the certificate is one that certbot makes: into its own archive, to
no name of another file. -/
def Ordinary : Prop := ∀ item target name, start.place w.liveDir = some item →
  item.node "fullchain.pem" = some (.link target name) → w.mine (.archive, target) →
    target = w.lineage ∧ name ∉ Certbot.names

/-- The restore has put the old archive back, and certbot's link is still there. -/
def Mixed (w : World) (s : State) : Prop :=
  ∃ todo, s.phase = .restoring todo ∧ w.liveDir ∈ todo ∧ w.archiveDir ∉ todo ∧
    s.place w.liveDir = some (liveLink w.lineage)

/-- A crash finds an ordinary link, and between old archive and new link only where the link leads
nowhere in the old archive or to the very certificate. -/
def Survivable (s : State) : Act → Prop
  | .crash => ∀ f, resolve start.place w.lineage = some f → f.content ≠ "" → Ordinary start ∧
      (Mixed w s → ∀ item g, start.place w.archiveDir = some item →
        item.node "fullchain1.pem" = some (.file g) →
        g.content ≠ "" → g = f)
  | _ => True

variable {start} {s t u : State} {a : Act} {acts : List Act} {e : Entry} {f g : File} {place : Tree}
  {item : Item} {node : Node}
  {lineage : String} {id id' : ℕ}

/-! Names of two certificates. -/

/-- After the number a name ends, or goes on with a hyphen or a dot. -/
theorem name_of_ofCertificate (h : ofCertificate id e = true) :
    ∃ rest, (∀ c ∈ rest.head?, c.isDigit = false) ∧
    e.2.toList = "npm-".toList ++ (Nat.toDigits 10 id ++ rest) := by
  have hid : (toString id).toList = Nat.toDigits 10 id := Nat.toList_repr
  have hname : (lineagePrefix id).toList = "npm-".toList ++ Nat.toDigits 10 id := by
    rw [lineagePrefix, String.toList_append, hid]
  have hversioned : (lineagePrefix id ++ "-").toList.isPrefixOf e.2.toList = true →
      ∃ rest, (∀ c ∈ rest.head?, c.isDigit = false) ∧
        e.2.toList = "npm-".toList ++ (Nat.toDigits 10 id ++ rest) := by
    intro hprefix
    obtain ⟨rest, hrest⟩ := List.isPrefixOf_iff_prefix.mp hprefix
    refine ⟨'-' :: rest, by simp, ?_⟩
    rw [← hrest, String.toList_append, hname]
    simp
  have hwhole : ∀ tail : String, (∀ c ∈ tail.toList.head?, c.isDigit = false) →
    e.2 = lineagePrefix id ++ tail →
      ∃ rest, (∀ c ∈ rest.head?, c.isDigit = false) ∧
        e.2.toList = "npm-".toList ++ (Nat.toDigits 10 id ++ rest) := by
    intro tail htail heq
    refine ⟨tail.toList, htail, ?_⟩
    rw [heq, String.toList_append, hname, List.append_assoc]
  have hconf : (e.2 = lineagePrefix id ++ ".conf" ||
    (lineagePrefix id ++ "-").toList.isPrefixOf e.2.toList) = true →
      ∃ rest, (∀ c ∈ rest.head?, c.isDigit = false) ∧
        e.2.toList = "npm-".toList ++ (Nat.toDigits 10 id ++ rest) := by
    intro hor
    rcases Bool.or_eq_true_iff.mp hor with heq | hprefix
    · exact hwhole ".conf" (by decide) (of_decide_eq_true heq)
    · exact hversioned hprefix
  have hdir : (e.2 = lineagePrefix id || (lineagePrefix id ++ "-").toList.isPrefixOf e.2.toList) =
    true →
      ∃ rest, (∀ c ∈ rest.head?, c.isDigit = false) ∧
        e.2.toList = "npm-".toList ++ (Nat.toDigits 10 id ++ rest) := by
    intro hor
    rcases Bool.or_eq_true_iff.mp hor with heq | hprefix
    · exact hwhole "" (by decide) ((of_decide_eq_true heq).trans String.append_empty.symm)
    · exact hversioned hprefix
  obtain ⟨sub, name⟩ := e
  cases sub with
  | archive | live => exact hdir h
  | renewal | certbotRenewal => exact hconf (Bool.and_eq_true_iff.mp h).1

/-- An entry belongs to one certificate only. -/
theorem id_of_ofCertificate (h : ofCertificate id e = true) (h' : ofCertificate id' e = true) :
    id = id' := by
  obtain ⟨rest, hrest, hname⟩ := name_of_ofCertificate h
  obtain ⟨rest', hrest', hname'⟩ := name_of_ofCertificate h'
  have heq : Nat.toDigits 10 id ++ rest = Nat.toDigits 10 id' ++ rest' :=
    List.append_cancel_left (hname.symm.trans hname')
  have hdigits : Nat.toDigits 10 id = Nat.toDigits 10 id' := by
    rw [← Text.takeWhile_toDigits hrest, heq, Text.takeWhile_toDigits hrest']
  rw [← Nat.ofDigitChars_ten_toDigits (n := id), hdigits, Nat.ofDigitChars_ten_toDigits]

/-! What the others see. -/

/-- The entries that a phase has still to handle. -/
def Phase.pending : Phase → List Entry
  | backing _ todo entries => todo ++ entries
  | certbot entries => entries
  | restoring todo | recovering _ todo => todo
  | discarding | down | .over => []

/-- Only entries of the certificate are handled, and all others are where they were. -/
structure Apart (start : Start w) (s : State) : Prop where
  place : ∀ e, ¬ w.mine e → s.place e = start.place e
  backup : ∀ e, ¬ w.mine e → s.backup e = none
  pending : ∀ e ∈ s.phase.pending, w.mine e
  made : ∀ e ∈ s.made, w.mine e

theorem apart_initial : Apart start (initial start) :=
  ⟨fun _ _ => rfl, fun _ _ => rfl, nofun, nofun⟩

theorem update_of_mine {tree : Tree} {x : Option Item} {e' : Entry} (he : w.mine e)
    (h : ¬ w.mine e') :
    Function.update tree e x e' = tree e' := by
  refine Function.update_of_ne ?_ ..
  rintro rfl
  exact h he

theorem Apart.setPlace (h : Apart start s) (he : w.mine e) : Apart start (s.setPlace e item) :=
  ⟨fun e' he' => (update_of_mine he he').trans (h.place e' he'), h.backup, h.pending, h.made⟩

theorem Apart.certbot {c : Certbot} (h : Apart start s) (hs : CertbotStep w s c t) :
    Apart start t := by
  cases hs with
  | @dir e hsub hmine hnone =>
    have ht : Apart start (s.setPlace e emptyDir) := h.setPlace hmine
    exact ⟨ht.place, ht.backup, ht.pending, List.forall_mem_cons.mpr ⟨hmine, h.made⟩⟩
  | link hmade => exact h.setPlace (h.made _ hmade)
  | write hmade => exact h.setPlace (h.made _ hmade)
  | @writeLast lineage f item hmade =>
    have ht : Apart start
        (s.setPlace (.archive, lineage) (item.withNode "fullchain1.pem" (.file f))) :=
      h.setPlace (h.made _ hmade)
    exact ⟨ht.place, ht.backup, ht.pending, ht.made⟩
  | conf hsub hmine => exact h.setPlace hmine

theorem Apart.remove (h : Apart start s) (he : w.mine e) : Apart start (s.remove e) :=
  ⟨fun e' he' => (update_of_mine he he').trans (h.place e' he'), h.backup, h.pending, h.made⟩

theorem Apart.putBack (h : Apart start s) (he : w.mine e) : Apart start (s.putBack e) :=
  ⟨fun e' he' => (update_of_mine he he').trans (h.place e' he'),
    fun e' he' => (update_of_mine he he').trans (h.backup e' he'), h.pending, h.made⟩

theorem Apart.moveAside (h : Apart start s) (he : w.mine e) : Apart start (s.moveAside e) :=
  ⟨fun e' he' => (update_of_mine he he').trans (h.place e' he'),
    fun e' he' => (update_of_mine he he').trans (h.backup e' he'), h.pending, h.made⟩

theorem Apart.phase {phase : Phase} (h : Apart start s) (hp : ∀ e ∈ phase.pending, w.mine e) :
    Apart start { s with phase } := ⟨h.place, h.backup, hp, h.made⟩

theorem Apart.work (h : Apart start s) (hs : work s = some t) : Apart start t := by
  have hpending := h.pending
  unfold RenewalBackup.work at hs
  split at hs
  · next listed e todo entries hphase =>
    rw [hphase] at hpending
    obtain rfl := Option.some.inj hs
    refine (h.moveAside (hpending e (by simp [Phase.pending]))).phase fun e' he' => hpending e' ?_
    simp only [Phase.pending, List.cons_append, List.mem_cons, List.mem_append, List.not_mem_nil,
      or_false] at he' ⊢
    tauto
  · next listed entries hphase =>
    rw [hphase] at hpending
    split at hs
    · obtain rfl := Option.some.inj hs
      exact h.phase hpending
    · cases hs
  · next e todo hphase =>
    rw [hphase] at hpending
    have he := hpending e List.mem_cons_self
    split at hs
    · obtain rfl := Option.some.inj hs
      exact h.remove he
    · obtain rfl := Option.some.inj hs
      exact (h.putBack he).phase fun e' he' => hpending e' (List.mem_cons_of_mem e he')
  · obtain rfl := Option.some.inj hs
    exact ⟨h.place, fun _ _ => rfl, nofun, h.made⟩
  · obtain rfl := Option.some.inj hs
    exact ⟨h.place, fun _ _ => rfl, nofun, h.made⟩
  · next listed e todo hphase =>
    rw [hphase] at hpending
    have he := hpending e List.mem_cons_self
    have htodo : ∀ e' ∈ todo, w.mine e' := fun e' he' => hpending e' (List.mem_cons_of_mem e he')
    split at hs
    · obtain rfl := Option.some.inj hs
      exact h.phase htodo
    · split at hs
      · obtain rfl := Option.some.inj hs
        exact h.remove he
      · obtain rfl := Option.some.inj hs
        exact (h.putBack he).phase htodo
  · split at hs
    · obtain rfl := Option.some.inj hs
      exact ⟨h.place, fun _ _ => rfl, nofun, h.made⟩
    · cases hs
  · cases hs
  · cases hs
  · cases hs

theorem Apart.step (h : Apart start s) (hs : Step w s a t) : Apart start t := by
  cases hs with
  | work hs => exact h.work hs
  | listBackup hphase hsub hes =>
    have hpending := h.pending
    rw [hphase] at hpending
    refine h.phase fun e he => ?_
    rcases List.mem_append.mp he with he | he
    · exact ((hes.2 e).mp he).2.1
    · exact hpending e he
  | certbot hphase hs => exact h.certbot hs
  | exit hphase =>
    have hpending := h.pending
    rw [hphase] at hpending
    refine h.phase ?_
    split
    · exact nofun
    · exact hpending
  | crash | recover => exact h.phase nofun
  | listRecovery hphase hsub hes =>
    refine h.phase fun e he => ?_
    by_contra hother
    have hsome := ((hes.2 e).mp he).2
    rw [h.backup e hother] at hsome
    cases hsome

/-! What a link resolves to. -/

theorem resolve_eq_some :
    resolve place lineage = some f ↔ ∃ item node, place (.live, lineage) = some item ∧
    item.node "fullchain.pem" = some node ∧ follow place node = some f := by
  simp only [resolve, Option.bind_eq_some_iff]
  constructor
  · rintro ⟨item, hitem, node, hnode, hfollow⟩
    exact ⟨item, node, hitem, hnode, hfollow⟩
  · rintro ⟨item, node, hitem, hnode, hfollow⟩
    exact ⟨item, hitem, node, hnode, hfollow⟩

theorem follow_link {target name : String} : follow place (.link target name) = some f ↔
    ∃ item, place (.archive, target) = some item ∧ item.node name = some (.file f) := by
  simp only [follow, Option.bind_eq_some_iff]
  refine exists_congr fun item => and_congr_right fun _ => ?_
  constructor
  · rintro ⟨node, hnode, hfile⟩
    cases node with
    | file g =>
      obtain rfl := Option.some.inj hfile
      exact hnode
    | link => cases hfile
  · intro hnode
    exact ⟨_, hnode, rfl⟩

/-- With more in place a link resolves as before. -/
theorem resolve_mono {place' : Tree}
    (h : ∀ e item, e.1 = .archive ∨ e.1 = .live → place e = some item → place' e = some item)
    (hf : resolve place lineage = some f) : resolve place' lineage = some f := by
  obtain ⟨item, node, hitem, hnode, hfollow⟩ := resolve_eq_some.mp hf
  refine resolve_eq_some.mpr ⟨item, node, h _ item (.inr rfl) hitem, hnode, ?_⟩
  cases node with
  | file g => exact hfollow
  | link target name =>
    obtain ⟨archive, harchive, hfile⟩ := follow_link.mp hfollow
    exact follow_link.mpr ⟨archive, h _ archive (.inl rfl) harchive, hfile⟩

theorem node_withNode (item : Item) (name : String) (node : Node) :
    (item.withNode name node).node name = some node := by
  rw [Item.withNode, Item.node, Function.update_self]

theorem node_withNode_of_ne {name name' : String} (h : name' ≠ name) :
    (item.withNode name node).node name' = item.node name' := by
  rw [Item.withNode, Item.node, Function.update_of_ne h]

theorem resolve_liveLink (h : place (.live, lineage) = some (liveLink lineage)) :
    resolve place lineage = some f ↔
    ∃ item, place (.archive, lineage) = some item ∧
    item.node "fullchain1.pem" = some (.file f) := by
  have hnode : (liveLink lineage).node "fullchain.pem" = some (.link lineage "fullchain1.pem") :=
    node_withNode ..
  rw [← follow_link, resolve, h, Option.bind_some, hnode, Option.bind_some]

/-- The certificate of the lineage can be read. -/
def Usable (w : World) (s : State) : Prop :=
  ∃ g, resolve s.place w.lineage = some g ∧ g.content ≠ ""

theorem liveUsable_iff : liveUsable s.place w.lineage = true ↔ Usable w s := by
  rw [liveUsable, Option.any_eq_true, Usable]
  simp

theorem not_resolve_of_none (h : s.place w.liveDir = none) :
    resolve s.place w.lineage ≠ some g := by
  intro hg
  obtain ⟨item, node, hitem, -⟩ := resolve_eq_some.mp hg
  rw [h] at hitem
  cases hitem

theorem not_resolve_of_emptyDir (h : s.place w.liveDir = some emptyDir) :
    resolve s.place w.lineage ≠ some g := by
  intro hg
  obtain ⟨item, node, hitem, hnode, -⟩ := resolve_eq_some.mp hg
  obtain rfl := Option.some.inj (h.symm.trans hitem)
  cases hnode

/-- A link into the archives of the certificate leads into that of the lineage. -/
def Home (w : World) (item : Item) : Prop :=
  ∀ target name, item.node "fullchain.pem" = some (.link target name) → w.mine (.archive, target) →
    target = w.lineage

theorem home_liveLink : Home w (liveLink w.lineage) := by
  intro target name hnode _
  have hlink : (liveLink w.lineage).node "fullchain.pem" =
      some (.link w.lineage "fullchain1.pem") := node_withNode ..
  rw [hlink] at hnode
  cases hnode
  rfl

/-- Only the two directories of the lineage matter, besides those of others. -/
theorem resolve_of_same (hhome : ∀ item, s.place w.liveDir = some item → Home w item)
    (hs : Apart start s) (ht : Apart start t)
    (hlive : t.place w.liveDir = s.place w.liveDir)
    (harchive : t.place w.archiveDir = s.place w.archiveDir)
    (hg : resolve s.place w.lineage = some g) : resolve t.place w.lineage = some g := by
  obtain ⟨item, node, hitem, hnode, hfollow⟩ := resolve_eq_some.mp hg
  refine resolve_eq_some.mpr ⟨item, node, hlive.trans hitem, hnode, ?_⟩
  cases node with
  | file f => exact hfollow
  | link target name =>
    obtain ⟨archive, hplace, hfile⟩ := follow_link.mp hfollow
    refine follow_link.mpr ⟨archive, ?_, hfile⟩
    by_cases hmine : w.mine (.archive, target) = true
    · obtain rfl := hhome item hitem target name hnode hmine
      exact harchive.trans hplace
    · rw [ht.place _ hmine, ← hs.place _ hmine, hplace]

theorem usable_congr (hhome : ∀ item, s.place w.liveDir = some item → Home w item)
    (hs : Apart start s) (ht : Apart start t)
    (hlive : t.place w.liveDir = s.place w.liveDir)
    (harchive : t.place w.archiveDir = s.place w.archiveDir) :
    Usable w t ↔ Usable w s := by
  constructor
  · rintro ⟨g, hg, hcontent⟩
    exact ⟨g, resolve_of_same (by rwa [hlive]) ht hs hlive.symm harchive.symm hg, hcontent⟩
  · rintro ⟨g, hg, hcontent⟩
    exact ⟨g, resolve_of_same hhome hs ht hlive harchive hg, hcontent⟩

/-! The old link. -/

/-- The old link leads to `name` in the archive of the lineage. -/
def Own (start : Start w) (name : String) : Prop :=
  ∃ item, start.place w.liveDir = some item ∧
    item.node "fullchain.pem" = some (.link w.lineage name)

def Lacks (w : World) (s : State) (name : String) : Prop :=
  ∀ item, s.place w.archiveDir = some item → item.node name = none

/-- Where the old link is back, and with it the archive it leads into, the old certificate is back.
-/
theorem resolve_old (hord : Ordinary start) (hs : Apart start s)
    (hlive : s.place w.liveDir = start.place w.liveDir)
    (harchive : ∀ name, Own start name → s.place w.archiveDir = start.place w.archiveDir)
    (hf : resolve start.place w.lineage = some f) : resolve s.place w.lineage = some f := by
  obtain ⟨item, node, hitem, hnode, hfollow⟩ := resolve_eq_some.mp hf
  refine resolve_eq_some.mpr ⟨item, node, hlive.trans hitem, hnode, ?_⟩
  cases node with
  | file g => exact hfollow
  | link target name =>
    obtain ⟨archive, hplace, hfile⟩ := follow_link.mp hfollow
    refine follow_link.mpr ⟨archive, ?_, hfile⟩
    by_cases hmine : w.mine (.archive, target) = true
    · obtain ⟨rfl, -⟩ := hord item target name hitem hnode hmine
      exact (harchive name ⟨item, hitem, hnode⟩).trans hplace
    · exact (hs.place _ hmine).trans hplace

/-- The old link leads nowhere in an archive without the file. -/
theorem not_resolve_of_lacks {name : String} (hlive : s.place w.liveDir = start.place w.liveDir)
    (hown : Own start name)
    (hlacks : Lacks w s name) : resolve s.place w.lineage ≠ some g := by
  intro hg
  obtain ⟨item, node, hitem, hnode, hfollow⟩ := resolve_eq_some.mp hg
  obtain ⟨old, hold, hlink⟩ := hown
  obtain rfl := Option.some.inj (hitem.symm.trans (hlive.trans hold))
  obtain rfl := Option.some.inj (hnode.symm.trans hlink)
  obtain ⟨archive, hplace, hfile⟩ := follow_link.mp hfollow
  rw [hlacks archive hplace] at hfile
  cases hfile

/-! The recovery. -/

theorem mine_liveDir (w : World) :
    w.mine w.liveDir = true := by simp [World.mine, ofCertificate, World.lineage]

theorem mine_archiveDir (w : World) :
    w.mine w.archiveDir = true := by simp [World.mine, ofCertificate, World.lineage]

theorem liveDir_ne_archiveDir : w.liveDir ≠ w.archiveDir := fun h => by cases h

/-- What can be relied on after a crash, and that whatever is usable is right. -/
structure Recoverable (start : Start w) (f : File) (s : State) : Prop where
  live : s.place w.liveDir = none ∨ s.place w.liveDir = some emptyDir ∨
    s.place w.liveDir = some (liveLink w.lineage) ∨
    s.place w.liveDir = start.place w.liveDir
  old : s.backup w.liveDir = none → s.place w.liveDir = start.place w.liveDir
  backed : s.backup w.liveDir = none ∨ s.backup w.liveDir = start.place w.liveDir
  backedArchive : s.backup w.archiveDir = none ∨ s.backup w.archiveDir = start.place w.archiveDir
  archive : ∀ name, Own start name → s.backup w.archiveDir = none →
    s.place w.archiveDir = start.place w.archiveDir
  /-- An old link does not come back over a file of certbot. -/
  lacks : ∀ name, Own start name → ¬ Usable w s → s.backup w.archiveDir ≠ none → Lacks w s name
  sound : ∀ g, resolve s.place w.lineage = some g → g.content ≠ "" → g = f ∨ s.written = some g

/-- The certificate is there: the old one, or one that certbot has completely written. -/
def Good (w : World) (f : File) (s : State) : Prop :=
  ∃ g, resolve s.place w.lineage = some g ∧ g.content ≠ "" ∧ (g = f ∨ s.written = some g)

theorem Recoverable.home (h : Recoverable start f s) (hord : Ordinary start) :
    ∀ item, s.place w.liveDir = some item → Home w item := by
  intro item hitem
  rcases h.live with hnone | hempty | hlink | hold
  · rw [hnone] at hitem
    cases hitem
  · obtain rfl := Option.some.inj (hempty.symm.trans hitem)
    exact nofun
  · obtain rfl := Option.some.inj (hlink.symm.trans hitem)
    exact home_liveLink
  · exact fun target name hnode hmine =>
      (hord item target name (hold.symm.trans hitem) hnode hmine).1

theorem Recoverable.good (h : Recoverable start f s) (hu : Usable w s) : Good w f s := by
  obtain ⟨g, hg, hcontent⟩ := hu
  exact ⟨g, hg, hcontent, h.sound g hg hcontent⟩

/-- Where nothing is left to put back, the certificate is there. -/
theorem Recoverable.finish (h : Recoverable start f s) (hord : Ordinary start) (ha : Apart start s)
    (hf : resolve start.place w.lineage = some f) (hne : f.content ≠ "")
    (hlive : s.backup w.liveDir = none ∨ Usable w s)
    (harchive : s.backup w.archiveDir = none ∨ Usable w s) : Good w f s := by
  by_cases hu : Usable w s
  · exact h.good hu
  · have hold := h.old (hlive.resolve_right hu)
    have hgone := harchive.resolve_right hu
    exact ⟨f, resolve_old hord ha hold (fun name hown => h.archive name hown hgone) hf, hne,
      .inl rfl⟩

/-- Nothing of the lineage has changed. -/
theorem Recoverable.of_same (h : Recoverable start f s) (hord : Ordinary start) (hs : Apart start s)
    (ht : Apart start t)
    (hplace : ∀ e, e = w.liveDir ∨ e = w.archiveDir → t.place e = s.place e ∧
      t.backup e = s.backup e)
    (hwritten : t.written = s.written) : Recoverable start f t := by
  obtain ⟨hlive, hliveBackup⟩ := hplace w.liveDir (.inl rfl)
  obtain ⟨harchive, harchiveBackup⟩ := hplace w.archiveDir (.inr rfl)
  have husable := usable_congr (h.home hord) hs ht hlive harchive
  constructor
  · rw [hlive]
    exact h.live
  · rw [hlive, hliveBackup]
    exact h.old
  · rw [hliveBackup]
    exact h.backed
  · rw [harchiveBackup]
    exact h.backedArchive
  · rw [harchive, harchiveBackup]
    exact h.archive
  · intro name hown hu hbackup item hitem
    rw [husable] at hu
    rw [harchiveBackup] at hbackup
    rw [harchive] at hitem
    exact h.lacks name hown hu hbackup item hitem
  · intro g hg hcontent
    rw [hwritten]
    exact h.sound g
      (resolve_of_same (by rw [hlive]; exact h.home hord) ht hs hlive.symm harchive.symm hg)
        hcontent

theorem place_remove_of_ne {e' : Entry} (h : e' ≠ e) : (s.remove e).place e' = s.place e' :=
  Function.update_of_ne h ..

theorem place_remove_self : (s.remove e).place e = none := Function.update_self ..

/-- What resolves after a removal has resolved before. -/
theorem resolve_of_remove (h : resolve (s.remove e).place lineage = some g) :
    resolve s.place lineage = some g := by
  refine resolve_mono (fun e' item _ hitem => ?_) h
  by_cases heq : e' = e
  · rw [heq, place_remove_self] at hitem
    cases hitem
  · rwa [place_remove_of_ne heq] at hitem

/-- Where the program removes an entry of the lineage, the lineage is not usable and the backup has
the entry. -/
theorem Recoverable.remove (h : Recoverable start f s) (hord : Ordinary start) (ha : Apart start s)
    (hmine : w.mine e)
    (hbacked : (s.backup e).isSome) (hu : e = w.liveDir ∨ e = w.archiveDir → ¬ Usable w s) :
    Recoverable start f (s.remove e) := by
  by_cases hother : e = w.liveDir ∨ e = w.archiveDir
  · have hne : ∀ e', s.backup e' = none → e' ≠ e := by
      rintro e' hnone rfl
      rw [hnone] at hbacked
      cases hbacked
    constructor
    · by_cases heq : w.liveDir = e
      · rw [heq]
        exact .inl place_remove_self
      · rw [place_remove_of_ne heq]
        exact h.live
    · intro hnone
      rw [place_remove_of_ne (hne _ hnone)]
      exact h.old hnone
    · exact h.backed
    · exact h.backedArchive
    · intro name hown hnone
      rw [place_remove_of_ne (hne _ hnone)]
      exact h.archive name hown hnone
    · intro name hown _ hbackup item hitem
      by_cases heq : w.archiveDir = e
      · rw [heq, place_remove_self] at hitem
        cases hitem
      · rw [place_remove_of_ne heq] at hitem
        exact h.lacks name hown (hu hother) hbackup item hitem
    · exact fun g hg hcontent => h.sound g (resolve_of_remove hg) hcontent
  · refine h.of_same hord ha (ha.remove hmine) (fun e' he' => ⟨place_remove_of_ne ?_, rfl⟩) rfl
    rintro rfl
    exact hother he'

theorem place_putBack_of_ne {e' : Entry} (h : e' ≠ e) : (s.putBack e).place e' = s.place e' :=
  Function.update_of_ne h ..

theorem backup_putBack_of_ne {e' : Entry} (h : e' ≠ e) : (s.putBack e).backup e' = s.backup e' :=
  Function.update_of_ne h ..

theorem place_putBack_self : (s.putBack e).place e = s.backup e := Function.update_self ..

theorem backup_putBack_self : (s.putBack e).backup e = none := Function.update_self ..

/-- What resolves before an entry is put back resolves after. -/
theorem resolve_putBack (hnone : s.place e = none) (h : resolve s.place lineage = some g) :
    resolve (s.putBack e).place lineage = some g := by
  refine resolve_mono (fun e' item _ hitem => ?_) h
  rwa [place_putBack_of_ne]
  rintro rfl
  rw [hnone] at hitem
  cases hitem

theorem eq_of_backed {x y : Option Item} (h : x = none ∨ x = y) (hx : x.isSome) : x = y := by
  rcases h with rfl | h
  · cases hx
  · exact h

/-- The old live directory is put back before any archive. -/
theorem Recoverable.putBack_live (h : Recoverable start f s) (hord : Ordinary start)
    (ha : Apart start s)
    (hf : resolve start.place w.lineage = some f) (hnone : s.place w.liveDir = none)
    (hbacked : (s.backup w.liveDir).isSome) : Recoverable start f (s.putBack w.liveDir) := by
  have hold : (s.putBack w.liveDir).place w.liveDir = start.place w.liveDir :=
    place_putBack_self.trans (eq_of_backed h.backed hbacked)
  have hne : w.archiveDir ≠ w.liveDir := liveDir_ne_archiveDir.symm
  have hlacks : ∀ name, Own start name → s.backup w.archiveDir ≠ none →
      Lacks w (s.putBack w.liveDir) name := by
    intro name hown hbackup item hitem
    rw [place_putBack_of_ne hne] at hitem
    exact h.lacks name hown (fun ⟨g, hg, _⟩ => not_resolve_of_none hnone hg) hbackup item hitem
  constructor
  · exact .inr (.inr (.inr hold))
  · exact fun _ => hold
  · exact .inl backup_putBack_self
  · rw [backup_putBack_of_ne hne]
    exact h.backedArchive
  · rw [place_putBack_of_ne hne, backup_putBack_of_ne hne]
    exact h.archive
  · intro name hown _ hbackup
    rw [backup_putBack_of_ne hne] at hbackup
    exact hlacks name hown hbackup
  · intro g hg _
    by_cases hgone : s.backup w.archiveDir = none
    · have hresolve := resolve_old hord (ha.putBack (mine_liveDir w)) hold (fun name hown => by
        rw [place_putBack_of_ne hne]
        exact h.archive name hown hgone) hf
      exact .inl (Option.some.inj (hg.symm.trans hresolve))
    · have hresolve := resolve_old hord (ha.putBack (mine_liveDir w)) hold (fun name hown =>
        absurd hg (not_resolve_of_lacks hold hown (hlacks name hown hgone))) hf
      exact .inl (Option.some.inj (hg.symm.trans hresolve))

theorem Recoverable.putBack_archive (h : Recoverable start f s) (hord : Ordinary start)
    (ha : Apart start s)
    (hf : resolve start.place w.lineage = some f) (hnone : s.place w.archiveDir = none)
    (hbacked : (s.backup w.archiveDir).isSome) (hlive : s.backup w.liveDir = none ∨ Usable w s) :
    Recoverable start f (s.putBack w.archiveDir) := by
  have hold : (s.putBack w.archiveDir).place w.archiveDir = start.place w.archiveDir :=
    place_putBack_self.trans (eq_of_backed h.backedArchive hbacked)
  have hne : w.liveDir ≠ w.archiveDir := liveDir_ne_archiveDir
  constructor
  · rw [place_putBack_of_ne hne]
    exact h.live
  · rw [place_putBack_of_ne hne, backup_putBack_of_ne hne]
    exact h.old
  · rw [backup_putBack_of_ne hne]
    exact h.backed
  · exact .inl backup_putBack_self
  · exact fun _ _ _ => hold
  · exact fun _ _ _ hbackup => absurd backup_putBack_self hbackup
  · intro g hg hcontent
    rcases hlive with hgone | ⟨g', hg', -⟩
    · have hresolve := resolve_old hord (ha.putBack (mine_archiveDir w))
        ((place_putBack_of_ne hne).trans (h.old hgone)) (fun _ _ => hold) hf
      exact .inl (Option.some.inj (hg.symm.trans hresolve))
    · obtain rfl := Option.some.inj (hg.symm.trans (resolve_putBack hnone hg'))
      exact h.sound g hg' hcontent

theorem Recoverable.putBack (h : Recoverable start f s) (hord : Ordinary start) (ha : Apart start s)
    (hmine : w.mine e)
    (hf : resolve start.place w.lineage = some f) (hnone : s.place e = none)
    (hbacked : (s.backup e).isSome)
    (hlive : e = w.archiveDir → s.backup w.liveDir = none ∨ Usable w s) :
    Recoverable start f (s.putBack e) := by
  by_cases heq : e = w.liveDir
  · subst heq
    exact h.putBack_live hord ha hf hnone hbacked
  · by_cases heq' : e = w.archiveDir
    · subst heq'
      exact h.putBack_archive hord ha hf hnone hbacked (hlive rfl)
    · refine h.of_same hord ha (ha.putBack hmine) (fun e' he' => ?_) rfl
      have hne : e' ≠ e := by
        rintro rfl
        exact he'.elim heq heq'
      exact ⟨place_putBack_of_ne hne, backup_putBack_of_ne hne⟩

/-- What a running recovery has done: a directory that is listed and no longer to do is back, or was
usable. -/
structure Recovering (w : World) (listed : ℕ) (todo : List Entry) (s : State) : Prop where
  nodup : todo.Nodup
  backed : ∀ e ∈ todo, (s.backup e).isSome
  first : w.liveDir ∈ todo → listed = 1
  second : w.archiveDir ∈ todo → listed = 2
  live : 1 ≤ listed → w.liveDir ∉ todo → s.backup w.liveDir = none ∨ Usable w s
  archive : 2 ≤ listed → w.archiveDir ∉ todo → s.backup w.archiveDir = none ∨ Usable w s

variable {listed : ℕ} {todo entries es : List Entry}

theorem keep_lineage (he : e = w.liveDir ∨ e = w.archiveDir) :
    keep s.place e = true ↔ (s.place e).isSome = true ∧ Usable w s := by
  rw [← liveUsable_iff, ← Bool.and_eq_true]
  rcases he with rfl | rfl <;> rfl

theorem usable_putBack (hnone : s.place e = none) (h : Usable w s) : Usable w (s.putBack e) := by
  obtain ⟨g, hg, hcontent⟩ := h
  exact ⟨g, resolve_putBack hnone hg, hcontent⟩

/-- The first entry is done. -/
theorem Recovering.next (h : Recovering w listed (e :: todo) s)
    (hbackup : ∀ e' ≠ e, t.backup e' = s.backup e')
    (hu : Usable w s → Usable w t)
    (hdone : e = w.liveDir ∨ e = w.archiveDir → t.backup e = none ∨ Usable w t) :
    Recovering w listed todo t := by
  obtain ⟨hnot, hnodup⟩ := List.nodup_cons.mp h.nodup
  have hstays : ∀ e', (e' = w.liveDir ∨ e' = w.archiveDir) →
    (e' ∉ e :: todo → s.backup e' = none ∨ Usable w s) →
      e' ∉ todo → t.backup e' = none ∨ Usable w t := by
    intro e' he' hold hnot'
    by_cases heq : e' = e
    · subst heq
      exact hdone he'
    · rw [hbackup e' heq]
      exact (hold (List.not_mem_cons_of_ne_of_not_mem heq hnot')).imp_right hu
  constructor
  · exact hnodup
  · intro e' he'
    rw [hbackup e' (ne_of_mem_of_not_mem he' hnot)]
    exact h.backed e' (List.mem_cons_of_mem e he')
  · exact fun hm => h.first (List.mem_cons_of_mem e hm)
  · exact fun hm => h.second (List.mem_cons_of_mem e hm)
  · exact fun hl => hstays w.liveDir (.inl rfl) (h.live hl)
  · exact fun hl => hstays w.archiveDir (.inr rfl) (h.archive hl)

/-- Something stands in the place of the first entry, and goes. -/
theorem Recovering.remove (h : Recovering w listed (e :: todo) s) (hr : Recoverable start f s)
    (hord : Ordinary start)
    (ha : Apart start s) (hmine : w.mine e) (hu : e = w.liveDir ∨ e = w.archiveDir → ¬ Usable w s) :
    Recovering w listed (e :: todo) (s.remove e) := by
  have husable : Usable w s → Usable w (s.remove e) := by
    intro husable
    have hother : ∀ e', e' = w.liveDir ∨ e' = w.archiveDir → e' ≠ e := by
      rintro e' he' rfl
      exact hu he' husable
    exact (usable_congr (hr.home hord) ha (ha.remove hmine)
      (place_remove_of_ne (hother _ (.inl rfl)))
      (place_remove_of_ne (hother _ (.inr rfl)))).mpr husable
  exact ⟨h.nodup, h.backed, h.first, h.second, fun hl hm => (h.live hl hm).imp_right husable,
    fun hl hm => (h.archive hl hm).imp_right husable⟩

/-! Before a crash. -/

/-- The archive comes before the live directory. -/
def ArchiveFirst (w : World) (es : List Entry) : Prop :=
  es.Pairwise fun a b => ¬ (a = w.liveDir ∧ b = w.archiveDir)

/-- An item as certbot makes it: `fullchain1.pem` is there once it is completely written. -/
def Written (s : State) (item : Item) : Prop := ∀ name node, item.node name = some node →
  name ∈ Certbot.names ∨ name = "fullchain1.pem" ∧ ∃ g, node = .file g ∧ s.written = some g ∧
    g.content ≠ ""

structure Backing (start : Start w) (listed : ℕ) (todo entries : List Entry) (s : State) :
    Prop where
  place : ∀ e, s.place e = if e ∈ entries then none else start.place e
  backup : ∀ e, s.backup e = if e ∈ entries then start.place e else none
  nodup : (entries ++ todo).Nodup
  there : ∀ e ∈ entries ++ todo, (start.place e).isSome
  first : listed = 0 → entries ++ todo = []
  order : ArchiveFirst w (entries ++ todo)
  covered : ∀ e, w.mine e → (start.place e).isSome → e.1 = .archive ∧ 1 ≤ listed ∨ e.1 = .live ∧
    2 ≤ listed →
    e ∈ entries ++ todo

structure Renewing (start : Start w) (entries : List Entry) (s : State) : Prop where
  backup : ∀ e, s.backup e = if e ∈ entries then start.place e else none
  nodup : entries.Nodup
  there : ∀ e ∈ entries, (start.place e).isSome
  order : ArchiveFirst w entries
  covered : ∀ e, w.mine e → (start.place e).isSome → e.1 = .archive ∨ e.1 = .live → e ∈ entries
  live : s.place w.liveDir = none ∨ s.place w.liveDir = some emptyDir ∨
    s.place w.liveDir = some (liveLink w.lineage)
  files : ∀ item, s.place w.archiveDir = some item → Written s item
  linked : ∀ item, s.place w.archiveDir = some item → (item.node "fullchain1.pem").isSome →
    s.place w.liveDir = some (liveLink w.lineage)

/-- Either directory of the lineage that is still to do is as certbot has left it. -/
structure Restoring (start : Start w) (todo : List Entry) (s : State) : Prop where
  backup : ∀ e, s.backup e = if e ∈ todo then start.place e else none
  nodup : todo.Nodup
  there : ∀ e ∈ todo, (start.place e).isSome
  order : ArchiveFirst w todo
  first : w.archiveDir ∈ todo → w.liveDir ∈ todo
  back : ∀ e, w.mine e → (start.place e).isSome → e.1 = .archive ∨ e.1 = .live → e ∉ todo →
    s.place e = start.place e
  live : w.liveDir ∈ todo →
    s.place w.liveDir = none ∨ s.place w.liveDir = some emptyDir ∨
      s.place w.liveDir = some (liveLink w.lineage)
  files : w.archiveDir ∈ todo ∨ start.place w.archiveDir = none →
    ∀ item, s.place w.archiveDir = some item → Written s item
  linked : w.archiveDir ∈ todo → ∀ item, s.place w.archiveDir = some item →
    (item.node "fullchain1.pem").isSome →
    s.place w.liveDir = some (liveLink w.lineage)

theorem liveDir_isSome (hf : resolve start.place w.lineage = some f) :
    (start.place w.liveDir).isSome := by
  obtain ⟨item, node, hitem, -⟩ := resolve_eq_some.mp hf
  rw [hitem]
  rfl

theorem archiveDir_isSome {name : String} (hf : resolve start.place w.lineage = some f)
    (hown : Own start name) :
    (start.place w.archiveDir).isSome := by
  obtain ⟨item, node, hitem, hnode, hfollow⟩ := resolve_eq_some.mp hf
  obtain ⟨old, hold, hlink⟩ := hown
  obtain rfl := Option.some.inj (hitem.symm.trans hold)
  obtain rfl := Option.some.inj (hnode.symm.trans hlink)
  obtain ⟨archive, hplace, -⟩ := follow_link.mp hfollow
  rw [hplace]
  rfl

/-- Certbot's link leads to a certificate only when that is completely written. -/
theorem written_of_resolve (hlive : s.place w.liveDir = none ∨ s.place w.liveDir = some emptyDir ∨
      s.place w.liveDir = some (liveLink w.lineage)) (hfiles :
      ∀ item, s.place w.archiveDir = some item → Written s item)
    (hg : resolve s.place w.lineage = some g) : s.written = some g ∧ g.content ≠ "" := by
  rcases hlive with hnone | hempty | hlink
  · exact absurd hg (not_resolve_of_none hnone)
  · exact absurd hg (not_resolve_of_emptyDir hempty)
  · obtain ⟨item, hitem, hnode⟩ := (resolve_liveLink hlink).mp hg
    rcases hfiles item hitem _ _ hnode with hname | ⟨-, g', hfile, hwritten, hcontent⟩
    · exact absurd hname (by decide)
    · cases hfile
      exact ⟨hwritten, hcontent⟩

/-- Over what certbot has not completely written, an old link does not come back to a file. -/
theorem lacks_of_written {name : String} (hname : name ∉ Certbot.names) (hu : ¬ Usable w s)
    (hfiles : ∀ item, s.place w.archiveDir = some item → Written s item)
    (hlinked : ∀ item, s.place w.archiveDir = some item → (item.node "fullchain1.pem").isSome →
      s.place w.liveDir = some (liveLink w.lineage)) : Lacks w s name := by
  intro item hitem
  by_contra hsome
  obtain ⟨node, hnode⟩ := Option.ne_none_iff_exists'.mp hsome
  rcases hfiles item hitem name node hnode with hmem | ⟨rfl, g, rfl, -, hcontent⟩
  · exact hname hmem
  · have hlink := hlinked item hitem (by rw [hnode]; rfl)
    exact hu ⟨g, (resolve_liveLink hlink).mpr ⟨item, hitem, hnode⟩, hcontent⟩

theorem backing_initial : Backing start 0 [] [] (initial start) :=
  ⟨fun _ => (if_neg List.not_mem_nil).symm, fun _ => (if_neg List.not_mem_nil).symm, List.nodup_nil,
    nofun, fun _ => rfl,
    List.Pairwise.nil, fun e _ _ h => by omega⟩

theorem Backing.moveAside (h : Backing start listed (e :: todo) entries s) (phase : Phase) :
    Backing start listed todo (entries ++ [e]) { s.moveAside e with phase } := by
  have hlist : entries ++ e :: todo = entries ++ [e] ++ todo := List.append_cons ..
  have hnot : e ∉ entries :=
    fun he => (List.nodup_append.mp h.nodup).2.2 e he e List.mem_cons_self rfl
  have hnodup := h.nodup
  have hthere := h.there
  have hfirst := h.first
  have horder := h.order
  have hcovered := h.covered
  rw [hlist] at hnodup hthere hfirst horder hcovered
  refine ⟨fun e' => ?_, fun e' => ?_, hnodup, hthere, hfirst, horder, hcovered⟩
  · change Function.update s.place e none e' = _
    by_cases heq : e' = e
    · subst heq
      rw [Function.update_self, if_pos (by simp)]
    · rw [Function.update_of_ne heq, h.place]
      simp [heq]
  · change Function.update s.backup e (s.place e) e' = _
    by_cases heq : e' = e
    · subst heq
      rw [Function.update_self, if_pos (by simp), h.place, if_neg hnot]
    · rw [Function.update_of_ne heq, h.backup]
      simp [heq]

theorem backupOrder_archive (h : backupOrder[listed]? = some .archive) : listed = 0 := by
  match listed with
  | 0 => rfl
  | 1 | 2 | 3 => cases h
  | n + 4 => cases h

/-- The archives are listed first and the live directories second. -/
theorem listed_of_order {sub x : Sub} (hsub : backupOrder[listed]? = some sub)
    (hx : x = .archive ∧ 1 ≤ listed + 1 ∨ x = .live ∧ 2 ≤ listed + 1) :
    x = sub ∨ x = .archive ∧ 1 ≤ listed ∨ x = .live ∧ 2 ≤ listed := by
  match listed with
  | 0 =>
    obtain rfl := Option.some.inj hsub
    rcases hx with ⟨rfl, -⟩ | ⟨-, hx⟩
    · exact .inl rfl
    · omega
  | 1 =>
    obtain rfl := Option.some.inj hsub
    rcases hx with ⟨rfl, -⟩ | ⟨rfl, -⟩
    · exact .inr (.inl ⟨rfl, by omega⟩)
    · exact .inl rfl
  | n + 2 => exact .inr (hx.imp (fun hx => ⟨hx.1, by omega⟩) fun hx => ⟨hx.1, by omega⟩)

theorem Backing.list {sub : Sub} (h : Backing start listed [] entries s)
    (hsub : backupOrder[listed]? = some sub)
    (hes : Listed w s.place sub es) (phase : Phase) :
    Backing start (listed + 1) es entries { s with phase } := by
  have hnodup := h.nodup
  have hthere := h.there
  have horder := h.order
  rw [List.append_nil] at hnodup hthere horder
  have hnew : ∀ e ∈ es, e.1 = sub ∧ e ∉ entries ∧ (start.place e).isSome := by
    intro e he
    obtain ⟨hsub', -, hplace, -⟩ := (hes.2 e).mp he
    rw [h.place] at hplace
    split at hplace
    · cases hplace
    · next hnot => exact ⟨hsub', hnot, hplace⟩
  constructor
  · exact h.place
  · exact h.backup
  · refine List.nodup_append.mpr ⟨hnodup, hes.1, ?_⟩
    rintro e he e' he' rfl
    exact (hnew e he').2.1 he
  · intro e he
    rcases List.mem_append.mp he with he | he
    · exact hthere e he
    · exact (hnew e he).2.2
  · intro hzero
    omega
  · refine List.pairwise_append.mpr ⟨horder, ?_, ?_⟩
    · refine List.pairwise_of_forall_mem_list ?_
      rintro a ha b hb ⟨rfl, rfl⟩
      cases (hnew _ ha).1.trans (hnew _ hb).1.symm
    · rintro a ha b hb ⟨-, rfl⟩
      rw [← (hnew _ hb).1] at hsub
      have hempty := h.first (backupOrder_archive hsub)
      rw [List.append_nil] at hempty
      rw [hempty] at ha
      cases ha
  · intro e hmine hsome hlisted
    rw [List.mem_append]
    by_cases he : e ∈ entries
    · exact .inl he
    · rcases listed_of_order hsub hlisted with hnow | hbefore
      · refine .inr ((hes.2 e).mpr ⟨hnow, hmine, ?_, fun hown => ?_⟩)
        · rwa [h.place, if_neg he]
        · rcases hlisted with hx | hx <;> cases hx.1.symm.trans hown
      · have hold := h.covered e hmine hsome hbefore
        rw [List.append_nil] at hold
        exact .inl hold

/-- Everything of the certificate is aside. -/
theorem Backing.done (h : Backing start listed [] entries s) (hlisted : listed = backupOrder.length)
    (hf : resolve start.place w.lineage = some f) (phase : Phase) :
    Renewing start entries { s with phase } := by
  have hnodup := h.nodup
  have hthere := h.there
  have horder := h.order
  have hcovered := h.covered
  rw [List.append_nil] at hnodup hthere horder hcovered
  have hall : ∀ e, w.mine e → (start.place e).isSome → e.1 = .archive ∨ e.1 = .live →
      e ∈ entries := by
    intro e hmine hsome he
    subst hlisted
    exact hcovered e hmine hsome (he.imp (fun he => ⟨he, by decide⟩) fun he => ⟨he, by decide⟩)
  have harchive : s.place w.archiveDir = none := by
    rw [h.place]
    split
    · rfl
    · next hnot =>
      by_contra hsome
      exact hnot (hall _ (mine_archiveDir w) (Option.isSome_iff_ne_none.mpr hsome) (.inl rfl))
  refine ⟨h.backup, hnodup, hthere, horder, hall, .inl ?_, fun item hitem => ?_, fun item hitem =>
    ?_⟩
  · exact (h.place _).trans (if_pos (hall _ (mine_liveDir w) (liveDir_isSome hf) (.inr rfl)))
  · cases harchive.symm.trans hitem
  · cases harchive.symm.trans hitem

theorem place_setPlace_of_ne {e' : Entry} (h : e' ≠ e) :
    (s.setPlace e item).place e' = s.place e' := Function.update_of_ne h ..

theorem place_setPlace_self : (s.setPlace e item).place e = some item := Function.update_self ..

/-- Certbot works on the directories of the lineage as it does, and on others as it likes. -/
theorem Renewing.certbot {c : Certbot} (h : Renewing start entries s) (hs : CertbotStep w s c t) :
    Renewing start entries t := by
  have hne : w.archiveDir ≠ w.liveDir := liveDir_ne_archiveDir.symm
  cases hs with
  | @dir e hsub hmine hnone =>
    refine ⟨h.backup, h.nodup, h.there, h.order, h.covered, ?_, fun item hitem => ?_,
      fun item hitem hsome => ?_⟩
    · by_cases heq : w.liveDir = e
      · exact .inr (.inl (by rw [heq]; exact place_setPlace_self))
      · have hlive := h.live
        rwa [← place_setPlace_of_ne heq] at hlive
    · by_cases heq : w.archiveDir = e
      · subst heq
        obtain rfl := Option.some.inj (place_setPlace_self.symm.trans hitem)
        exact nofun
      · exact h.files item ((place_setPlace_of_ne heq).symm.trans hitem)
    · by_cases heq : w.archiveDir = e
      · subst heq
        obtain rfl := Option.some.inj (place_setPlace_self.symm.trans hitem)
        cases hsome
      · have hlink := h.linked item ((place_setPlace_of_ne heq).symm.trans hitem) hsome
        refine (place_setPlace_of_ne ?_).trans hlink
        rintro rfl
        cases hnone.symm.trans hlink
  | @link lineage hmade =>
    have hstays : (s.setPlace (.live, lineage) (liveLink lineage)).place w.archiveDir =
        s.place w.archiveDir :=
      place_setPlace_of_ne (by simp)
    refine ⟨h.backup, h.nodup, h.there, h.order, h.covered, ?_, fun item hitem =>
      h.files item (hstays.symm.trans hitem),
      fun item hitem hsome => ?_⟩
    · by_cases heq : w.lineage = lineage
      · subst heq
        exact .inr (.inr place_setPlace_self)
      · have hlive := h.live
        rwa [← place_setPlace_of_ne (e := (.live, lineage)) (by simp [heq])] at hlive
    · by_cases heq : w.lineage = lineage
      · subst heq
        exact place_setPlace_self
      · exact (place_setPlace_of_ne (by simp [heq])).trans
          (h.linked item (hstays.symm.trans hitem) hsome)
  | @write lineage name f item hmade hold hname =>
    have hstays : (s.setPlace (.archive, lineage) (item.withNode name (.file f))).place w.liveDir =
        s.place w.liveDir :=
      place_setPlace_of_ne (by simp)
    refine ⟨h.backup, h.nodup, h.there, h.order, h.covered,
      by rw [hstays]; exact h.live, fun item' hitem => ?_,
      fun item' hitem hsome => ?_⟩
    · by_cases heq : w.lineage = lineage
      · subst heq
        obtain rfl := Option.some.inj (place_setPlace_self.symm.trans hitem)
        intro name' node hnode
        by_cases hnew : name' = name
        · exact .inl (hnew ▸ hname)
        · exact h.files item hold name' node ((node_withNode_of_ne hnew).symm.trans hnode)
      · exact h.files item' ((place_setPlace_of_ne (by simp [heq])).symm.trans hitem)
    · rw [hstays]
      by_cases heq : w.lineage = lineage
      · subst heq
        obtain rfl := Option.some.inj (place_setPlace_self.symm.trans hitem)
        refine h.linked item hold ?_
        rwa [node_withNode_of_ne] at hsome
        rintro rfl
        exact absurd hname (by decide)
      · exact h.linked item' ((place_setPlace_of_ne (by simp [heq])).symm.trans hitem) hsome
  | @writeLast lineage f item hmade hold hlink hcontent =>
    have hstays : (s.setPlace (.archive, lineage) (item.withNode "fullchain1.pem" (.file f))).place
        w.liveDir = s.place w.liveDir :=
      place_setPlace_of_ne (by simp)
    by_cases heq : lineage = w.lineage
    · subst heq
      refine ⟨h.backup, h.nodup, h.there, h.order, h.covered, .inr (.inr (hstays.trans hlink)),
        fun item' hitem => ?_,
        fun _ _ _ => hstays.trans hlink⟩
      obtain rfl := Option.some.inj (place_setPlace_self.symm.trans hitem)
      intro name node hnode
      by_cases hnew : name = "fullchain1.pem"
      · subst hnew
        rw [node_withNode] at hnode
        exact .inr ⟨rfl, f, (Option.some.inj hnode).symm, if_pos rfl, hcontent⟩
      · rcases h.files item hold name node ((node_withNode_of_ne hnew).symm.trans hnode) with hname
          | ⟨hname, -⟩
        · exact .inl hname
        · exact absurd hname hnew
    · have hother : w.archiveDir ≠ (.archive, lineage) := by simp [Ne.symm heq]
      refine ⟨h.backup, h.nodup, h.there, h.order, h.covered,
        by rw [if_neg heq, hstays]; exact h.live,
        fun item' hitem => ?_, fun item' hitem hsome => ?_⟩
      · rw [if_neg heq]
        exact h.files item' ((place_setPlace_of_ne hother).symm.trans hitem)
      · exact hstays.trans (h.linked item' ((place_setPlace_of_ne hother).symm.trans hitem) hsome)
  | @conf e text hsub hmine hnone =>
    have hlive : w.liveDir ≠ e := by
      rintro rfl
      rcases hsub with hsub | hsub <;> cases hsub
    have harchive : w.archiveDir ≠ e := by
      rintro rfl
      rcases hsub with hsub | hsub <;> cases hsub
    refine ⟨h.backup, h.nodup, h.there, h.order, h.covered,
      by rw [place_setPlace_of_ne hlive]; exact h.live,
      fun item hitem => h.files item ((place_setPlace_of_ne harchive).symm.trans hitem),
        fun item hitem hsome => ?_⟩
    exact (place_setPlace_of_ne hlive).trans
      (h.linked item ((place_setPlace_of_ne harchive).symm.trans hitem) hsome)

theorem Renewing.restoring (h : Renewing start entries s)
    (hf : resolve start.place w.lineage = some f) (phase : Phase) :
    Restoring start entries { s with phase } :=
  ⟨h.backup, h.nodup, h.there, h.order, fun _ => h.covered _ (mine_liveDir w) (liveDir_isSome hf)
    (.inr rfl),
    fun e hmine hsome he hnot => absurd (h.covered e hmine hsome he) hnot, fun _ => h.live,
      fun _ => h.files, fun _ => h.linked⟩

theorem Renewing.phase (h : Renewing start entries s) (phase : Phase) :
    Renewing start entries { s with phase } :=
  ⟨h.backup, h.nodup, h.there, h.order, h.covered, h.live, h.files, h.linked⟩

theorem Restoring.remove (h : Restoring start (e :: todo) s) :
    Restoring start (e :: todo) (s.remove e) := by
  refine ⟨h.backup, h.nodup, h.there, h.order, h.first, fun e' hmine hsome he hnot => ?_, fun hm =>
    ?_, fun hm item hitem => ?_,
    fun hm item hitem hsome => ?_⟩
  · exact (place_remove_of_ne (List.ne_of_not_mem_cons hnot)).trans (h.back e' hmine hsome he hnot)
  · by_cases heq : w.liveDir = e
    · rw [heq]
      exact .inl place_remove_self
    · rw [place_remove_of_ne heq]
      exact h.live hm
  · by_cases heq : w.archiveDir = e
    · rw [heq, place_remove_self] at hitem
      cases hitem
    · exact h.files hm item ((place_remove_of_ne heq).symm.trans hitem)
  · by_cases heq : w.archiveDir = e
    · rw [heq, place_remove_self] at hitem
      cases hitem
    · -- the live directory does not go before the archive
      refine (place_remove_of_ne ?_).trans
        (h.linked hm item ((place_remove_of_ne heq).symm.trans hitem) hsome)
      rintro rfl
      exact (List.pairwise_cons.mp h.order).1 _ ((List.mem_cons.mp hm).resolve_left heq) ⟨rfl, rfl⟩

theorem Restoring.putBack (h : Restoring start (e :: todo) s) (phase : Phase) :
    Restoring start todo { s.putBack e with phase } := by
  obtain ⟨hnot, hnodup⟩ := List.nodup_cons.mp h.nodup
  obtain ⟨hfirst, horder⟩ := List.pairwise_cons.mp h.order
  have hne : ∀ e' ∈ todo, e' ≠ e := fun e' he' => ne_of_mem_of_not_mem he' hnot
  refine ⟨fun e' => ?_, hnodup, fun e' he' => h.there e' (List.mem_cons_of_mem e he'), horder,
    fun hm => ?_,
    fun e' hmine hsome he hnot' => ?_, fun hm => ?_, fun hm item hitem => ?_,
      fun hm item hitem hsome => ?_⟩
  · change (s.putBack e).backup e' = _
    by_cases heq : e' = e
    · subst heq
      rw [backup_putBack_self, if_neg hnot]
    · rw [backup_putBack_of_ne heq, h.backup]
      simp [heq]
  · refine (List.mem_cons.mp (h.first (List.mem_cons_of_mem e hm))).resolve_left ?_
    rintro rfl
    exact hfirst _ hm ⟨rfl, rfl⟩
  · change (s.putBack e).place e' = _
    by_cases heq : e' = e
    · subst heq
      rw [place_putBack_self, h.backup, if_pos List.mem_cons_self]
    · rw [place_putBack_of_ne heq]
      exact h.back e' hmine hsome he (List.not_mem_cons_of_ne_of_not_mem heq hnot')
  · change (s.putBack e).place _ = _ ∨ _
    have hlive := h.live (List.mem_cons_of_mem e hm)
    rwa [← place_putBack_of_ne (hne _ hm)] at hlive
  · have heq : w.archiveDir ≠ e := by
      rintro rfl
      rcases hm with hm | hnone
      · exact hnot hm
      · have hsome := h.there _ List.mem_cons_self
        rw [hnone] at hsome
        cases hsome
    exact h.files (hm.imp_left (List.mem_cons_of_mem e)) item
      ((place_putBack_of_ne heq).symm.trans hitem)
  · refine (place_putBack_of_ne ?_).trans
      (h.linked (List.mem_cons_of_mem e hm) item ((place_putBack_of_ne (hne _ hm)).symm.trans hitem)
        hsome)
    rintro rfl
    exact hfirst _ hm ⟨rfl, rfl⟩

/-- A restore that is through has everything of the old lineage back, whatever its link is. -/
theorem Restoring.finish (h : Restoring start [] s) (ha : Apart start s)
    (hf : resolve start.place w.lineage = some f) :
    resolve s.place w.lineage = some f := by
  refine resolve_mono (fun e item he hitem => ?_) hf
  by_cases hmine : w.mine e = true
  · exact (h.back e hmine (by rw [hitem]; rfl) he List.not_mem_nil).trans hitem
  · exact (ha.place e hmine).trans hitem

/-! A crash. -/

theorem Ordinary.notMem {name : String} (hord : Ordinary start) (hown : Own start name) :
    name ∉ Certbot.names := by
  obtain ⟨item, hitem, hnode⟩ := hown
  exact (hord item w.lineage name hitem hnode (mine_archiveDir w)).2

/-- The backup has either all of an entry or nothing. -/
theorem backed_cases {tree : Tree} (h : ∀ e, s.backup e = if e ∈ es then tree e else none)
    (e : Entry) :
    s.backup e = none ∨ s.backup e = tree e := by
  rw [h e]
  split
  · exact .inr rfl
  · exact .inl rfl

theorem notMem_of_backup {tree : Tree} (h : ∀ e, s.backup e = if e ∈ es then tree e else none)
    (hsome : (tree e).isSome)
    (hnone : s.backup e = none) : e ∉ es := by
  intro he
  rw [h e, if_pos he] at hnone
  rw [hnone] at hsome
  cases hsome

theorem mem_of_backup {tree : Tree} (h : ∀ e, s.backup e = if e ∈ es then tree e else none)
    (hsome : s.backup e ≠ none) :
    e ∈ es := by
  by_contra hnot
  exact hsome ((h e).trans (if_neg hnot))

theorem Backing.recoverable (h : Backing start listed todo entries s) (hord : Ordinary start)
    (ha : Apart start s)
    (hf : resolve start.place w.lineage = some f) : Recoverable start f s := by
  have hstays : ∀ e, e ∉ entries → s.place e = start.place e :=
    fun e he => (h.place e).trans (if_neg he)
  have hgone : ∀ e, e ∈ entries → s.place e = none := fun e he => (h.place e).trans (if_pos he)
  have hlacks : ∀ name, w.archiveDir ∈ entries → Lacks w s name := by
    intro name he item hitem
    cases (hgone _ he).symm.trans hitem
  constructor
  · by_cases he : w.liveDir ∈ entries
    · exact .inl (hgone _ he)
    · exact .inr (.inr (.inr (hstays _ he)))
  · exact fun hnone => hstays _ (notMem_of_backup h.backup (liveDir_isSome hf) hnone)
  · exact backed_cases h.backup _
  · exact backed_cases h.backup _
  · exact fun name hown hnone =>
      hstays _ (notMem_of_backup h.backup (archiveDir_isSome hf hown) hnone)
  · exact fun name _ _ hbackup => hlacks name (mem_of_backup h.backup hbackup)
  · intro g hg _
    have hlive : s.place w.liveDir = start.place w.liveDir :=
      hstays _ fun he => not_resolve_of_none (hgone _ he) hg
    have hresolve := resolve_old hord ha hlive (fun name hown => by
      by_cases he : w.archiveDir ∈ entries
      · exact absurd hg (not_resolve_of_lacks hlive hown (hlacks name he))
      · exact hstays _ he) hf
    exact .inl (Option.some.inj (hg.symm.trans hresolve))

theorem Renewing.recoverable (h : Renewing start entries s) (hord : Ordinary start)
    (hf : resolve start.place w.lineage = some f) : Recoverable start f s := by
  constructor
  · exact h.live.imp_right fun hlive => hlive.imp_right .inl
  · intro hnone
    exact absurd (h.covered _ (mine_liveDir w) (liveDir_isSome hf) (.inr rfl))
      (notMem_of_backup h.backup (liveDir_isSome hf) hnone)
  · exact backed_cases h.backup _
  · exact backed_cases h.backup _
  · intro name hown hnone
    exact absurd (h.covered _ (mine_archiveDir w) (archiveDir_isSome hf hown) (.inl rfl))
      (notMem_of_backup h.backup (archiveDir_isSome hf hown) hnone)
  · exact fun name hown hu _ => lacks_of_written (hord.notMem hown) hu h.files h.linked
  · exact fun g hg _ => .inr (written_of_resolve h.live h.files hg).1

/-- Between old archive and new link, only the very certificate may be there. -/
theorem Restoring.recoverable (h : Restoring start todo s) (hord : Ordinary start)
    (ha : Apart start s)
    (hf : resolve start.place w.lineage = some f)
    (hmixed : w.liveDir ∈ todo → w.archiveDir ∉ todo →
      s.place w.liveDir = some (liveLink w.lineage) → ∀ item g,
      start.place w.archiveDir = some item → item.node "fullchain1.pem" = some (.file g) →
      g.content ≠ "" → g = f) :
    Recoverable start f s := by
  have hlive : w.liveDir ∉ todo → s.place w.liveDir = start.place w.liveDir :=
    h.back _ (mine_liveDir w) (liveDir_isSome hf) (.inr rfl)
  have harchive : w.archiveDir ∉ todo → (start.place w.archiveDir).isSome →
      s.place w.archiveDir = start.place w.archiveDir :=
    fun hnot hsome => h.back _ (mine_archiveDir w) hsome (.inl rfl) hnot
  constructor
  · by_cases hm : w.liveDir ∈ todo
    · exact (h.live hm).imp_right fun hl => hl.imp_right .inl
    · exact .inr (.inr (.inr (hlive hm)))
  · exact fun hnone => hlive (notMem_of_backup h.backup (liveDir_isSome hf) hnone)
  · exact backed_cases h.backup _
  · exact backed_cases h.backup _
  · intro name hown hnone
    exact harchive (notMem_of_backup h.backup (archiveDir_isSome hf hown) hnone)
      (archiveDir_isSome hf hown)
  · intro name hown hu hbackup
    have hm := mem_of_backup h.backup hbackup
    exact lacks_of_written (hord.notMem hown) hu (h.files (.inl hm)) (h.linked hm)
  · intro g hg hcontent
    by_cases hm : w.liveDir ∈ todo
    · by_cases hmine : w.archiveDir ∈ todo ∨ start.place w.archiveDir = none
      · exact .inr (written_of_resolve (h.live hm) (h.files hmine) hg).1
      · obtain ⟨hnot, hsome⟩ := not_or.mp hmine
        rcases h.live hm with hnone | hempty | hlink
        · exact absurd hg (not_resolve_of_none hnone)
        · exact absurd hg (not_resolve_of_emptyDir hempty)
        · obtain ⟨item, hitem, hnode⟩ := (resolve_liveLink hlink).mp hg
          rw [harchive hnot (Option.isSome_iff_ne_none.mpr hsome)] at hitem
          exact .inl (hmixed hm hnot hlink item g hitem hnode hcontent)
    · have hresolve := resolve_old hord ha (hlive hm)
        (fun name hown => harchive (mt h.first hm) (archiveDir_isSome hf hown)) hf
      exact .inl (Option.some.inj (hg.symm.trans hresolve))

/-! Every step. -/

/-- What holds of the certificate in each phase. -/
def Held (start : Start w) (f : File) (s : State) : Prop :=
  match s.phase with
  | .backing listed todo entries => Backing start listed todo entries s
  | .certbot entries => Renewing start entries s
  | .restoring todo => Restoring start todo s
  | .discarding => ∃ entries, Renewing start entries s ∧ Usable w s
  | .down => Ordinary start ∧ Recoverable start f s
  | .recovering listed todo => Ordinary start ∧ Recoverable start f s ∧ Recovering w listed todo s
  | .over => Good w f s

theorem Recoverable.phase (h : Recoverable start f s) (phase : Phase) :
    Recoverable start f { s with phase } :=
  ⟨h.live, h.old, h.backed, h.backedArchive, h.archive, h.lacks, h.sound⟩

theorem held_recovering (hf : resolve start.place w.lineage = some f) (hne : f.content ≠ "")
    (ha : Apart start s)
    (hphase : s.phase = .recovering listed todo) (h : Held start f s) (hs : work s = some t) :
    Held start f t := by
  simp only [Held, hphase] at h
  obtain ⟨hord, hr, h⟩ := h
  have hmine := ha.pending
  rw [hphase] at hmine
  simp only [work, hphase] at hs
  cases todo with
  | nil =>
    dsimp only at hs
    split at hs
    · next hlisted =>
      obtain rfl := Option.some.inj hs
      subst hlisted
      exact hr.finish hord ha hf hne (h.live (by decide) List.not_mem_nil)
        (h.archive (by decide) List.not_mem_nil)
    · cases hs
  | cons e todo =>
    have he : w.mine e = true := hmine e List.mem_cons_self
    have hbacked := h.backed e List.mem_cons_self
    dsimp only at hs
    split at hs
    · next hkeep =>
      obtain rfl := Option.some.inj hs
      exact ⟨hord, hr.phase _, h.next (fun _ _ => rfl) (fun hu => hu) fun he' =>
        .inr ((keep_lineage he').mp hkeep).2⟩
    · next hkeep =>
      split at hs
      · next hsome =>
        obtain rfl := Option.some.inj hs
        have hu : e = w.liveDir ∨ e = w.archiveDir → ¬ Usable w s :=
          fun he' husable => hkeep ((keep_lineage he').mpr ⟨hsome, husable⟩)
        have hremoved : (s.remove e).phase = .recovering listed (e :: todo) := hphase
        rw [Held, hremoved]
        exact ⟨hord, hr.remove hord ha he hbacked hu, h.remove hr hord ha he hu⟩
      · next hnone =>
        obtain rfl := Option.some.inj hs
        have hnone := Option.not_isSome_iff_eq_none.mp hnone
        refine ⟨hord, (hr.putBack hord ha he hf hnone hbacked ?_).phase _,
          h.next (fun _ => backup_putBack_of_ne)
          (usable_putBack hnone) fun _ => .inl backup_putBack_self⟩
        rintro rfl
        have hsecond := h.second List.mem_cons_self
        refine h.live (by omega) fun hm => ?_
        have hfirst := h.first hm
        omega

theorem held_work (hf : resolve start.place w.lineage = some f) (hne : f.content ≠ "")
    (ha : Apart start s)
    (h : Held start f s) (hs : work s = some t) : Held start f t := by
  cases hphase : s.phase with
  | backing listed todo entries =>
    simp only [Held, hphase] at h
    simp only [work, hphase] at hs
    cases todo with
    | nil =>
      dsimp only at hs
      split at hs
      · next hlisted =>
        obtain rfl := Option.some.inj hs
        exact h.done hlisted hf _
      · cases hs
    | cons e todo =>
      obtain rfl := Option.some.inj hs
      exact h.moveAside _
  | restoring todo =>
    simp only [Held, hphase] at h
    simp only [work, hphase] at hs
    cases todo with
    | nil =>
      obtain rfl := Option.some.inj hs
      exact ⟨f, h.finish ha hf, hne, .inl rfl⟩
    | cons e todo =>
      dsimp only at hs
      split at hs
      · obtain rfl := Option.some.inj hs
        have hremoved : (s.remove e).phase = .restoring (e :: todo) := hphase
        rw [Held, hremoved]
        exact h.remove
      · obtain rfl := Option.some.inj hs
        exact h.putBack _
  | discarding =>
    simp only [Held, hphase] at h
    simp only [work, hphase] at hs
    obtain ⟨entries, h, g, hg, -⟩ := h
    obtain rfl := Option.some.inj hs
    obtain ⟨hwritten, hcontent⟩ := written_of_resolve h.live h.files hg
    exact ⟨g, hg, hcontent, .inr hwritten⟩
  | recovering listed todo => exact held_recovering hf hne ha hphase h hs
  | _ =>
    simp only [work, hphase] at hs
    cases hs

theorem held_crash (hf : resolve start.place w.lineage = some f) (hne : f.content ≠ "")
    (ha : Apart start s)
    (hok : Survivable start s .crash) (hphase : s.phase ≠ .over) (h : Held start f s) :
    Held start f { s with phase := .down } := by
  obtain ⟨hord, hmixed⟩ := hok f hf hne
  suffices hr : Recoverable start f s from ⟨hord, hr.phase _⟩
  cases hp : s.phase with
  | backing listed todo entries =>
    simp only [Held, hp] at h
    exact h.recoverable hord ha hf
  | certbot entries =>
    simp only [Held, hp] at h
    exact h.recoverable hord hf
  | restoring todo =>
    simp only [Held, hp] at h
    exact h.recoverable hord ha hf fun hlive harchive hlink =>
      hmixed ⟨todo, hp, hlive, harchive, hlink⟩
  | discarding =>
    simp only [Held, hp] at h
    obtain ⟨entries, h, -⟩ := h
    exact h.recoverable hord hf
  | down =>
    simp only [Held, hp] at h
    exact h.2
  | recovering =>
    simp only [Held, hp] at h
    exact h.2.1
  | _ => exact absurd hp hphase

theorem recoveryOrder_live (h : recoveryOrder[listed]? = some .live) : listed = 0 := by
  match listed with
  | 0 => rfl
  | 1 | 2 | 3 => cases h
  | n + 4 => cases h

theorem recoveryOrder_archive (h : recoveryOrder[listed]? = some .archive) : listed = 1 := by
  match listed with
  | 1 => rfl
  | 0 | 2 | 3 => cases h
  | n + 4 => cases h

theorem Recovering.list {sub : Sub} (h : Recovering w listed [] s)
    (hsub : recoveryOrder[listed]? = some sub)
    (hes : es.Nodup ∧ ∀ e, e ∈ es ↔ e.1 = sub ∧ (s.backup e).isSome) (phase : Phase) :
    Recovering w (listed + 1) es { s with phase } := by
  have hnone : ∀ e, e.1 = sub → e ∉ es → s.backup e = none := by
    intro e he hnot
    by_contra hsome
    exact hnot ((hes.2 e).mpr ⟨he, Option.isSome_iff_ne_none.mpr hsome⟩)
  constructor
  · exact hes.1
  · exact fun e he => ((hes.2 e).mp he).2
  · intro hm
    rw [← ((hes.2 _).mp hm).1] at hsub
    rw [recoveryOrder_live hsub]
  · intro hm
    rw [← ((hes.2 _).mp hm).1] at hsub
    rw [recoveryOrder_archive hsub]
  · intro _ hnot
    match listed with
    | 0 => exact .inl (hnone _ (Option.some.inj hsub) hnot)
    | n + 1 => exact h.live (by omega) List.not_mem_nil
  · intro hl hnot
    match listed with
    | 0 => omega
    | 1 => exact .inl (hnone _ (Option.some.inj hsub) hnot)
    | n + 2 => exact h.archive (by omega) List.not_mem_nil

theorem held_step (hf : resolve start.place w.lineage = some f) (hne : f.content ≠ "")
    (ha : Apart start s)
    (hok : Survivable start s a) (h : Held start f s) (hs : Step w s a t) : Held start f t := by
  cases hs with
  | work hs => exact held_work hf hne ha h hs
  | listBackup hphase hsub hes =>
    simp only [Held, hphase] at h
    exact h.list hsub hes _
  | @certbot c t entries hphase hs =>
    have hphase' : t.phase = .certbot entries := by cases hs <;> exact hphase
    simp only [Held, hphase] at h
    rw [Held, hphase']
    exact h.certbot hs
  | @exit entries ok config hphase =>
    simp only [Held, hphase] at h
    by_cases hdone : (ok && (resolve s.place w.lineage).isSome && config) = true
    · obtain ⟨g, hg⟩ :=
        Option.isSome_iff_exists.mp (Bool.and_eq_true_iff.mp (Bool.and_eq_true_iff.mp hdone).1).2
      rw [if_pos hdone]
      exact ⟨entries, h.phase _, g, hg, (written_of_resolve h.live h.files hg).2⟩
    · rw [if_neg hdone]
      exact h.restoring hf _
  | crash hphase => exact held_crash hf hne ha hok hphase h
  | recover hphase =>
    simp only [Held, hphase] at h
    exact ⟨h.1, h.2.phase _, List.nodup_nil, nofun, nofun, nofun, fun hl => absurd hl (by decide),
      fun hl => absurd hl (by decide)⟩
  | listRecovery hphase hsub hes =>
    simp only [Held, hphase] at h
    exact ⟨h.1, h.2.1.phase _, h.2.2.list hsub hes _⟩

/-- In every run whose crashes can be survived, the certificate and the entries of all others are
there at the end. -/
theorem kept_of_survivable_run
    (h : Run (Guarded (Step w) (Survivable start)) (initial start) acts s) : Kept start s := by
  have hapart : Apart start s :=
    h.of_guarded.invariant (fun _ _ _ hs ha => ha.step hs) apart_initial
  refine ⟨fun hover f hf hne => ?_, fun id e hid he => hapart.place e fun hmine =>
    hid (id_of_ofCertificate he hmine)⟩
  have hstep : ∀ s a t, Step w s a t → Survivable start s a → Apart start s ∧ Held start f s →
      Apart start t ∧ Held start f t :=
    fun _ _ _ hs hok hi => ⟨hi.1.step hs, held_step hf hne hi.1 hok hi.2 hs⟩
  have hheld : Apart start s ∧ Held start f s :=
    h.guarded_invariant (I := fun u => Apart start u ∧ Held start f u) hstep
      ⟨apart_initial, backing_initial⟩
  have hgood := hheld.2
  simp only [Held, hover] at hgood
  exact hgood

/-! Certificate 1 with its fifth certificate in use, and no renewal conf. -/

def sampleWorld : World := ⟨1, .shared⟩

def firstFile : File := ⟨1, "first"⟩

def fifthFile : File := ⟨5, "fifth"⟩

def sampleArchive : Item :=
  (emptyDir.withNode "fullchain1.pem" (.file firstFile)).withNode "fullchain5.pem" (.file fifthFile)

def sampleLive : Item := emptyDir.withNode "fullchain.pem" (.link "npm-1" "fullchain5.pem")

def samplePlace : Tree :=
  Function.update (Function.update (fun _ => none) sampleWorld.archiveDir (some sampleArchive))
    sampleWorld.liveDir (some sampleLive)

def sampleStart : Start sampleWorld := ⟨samplePlace, by decide⟩

/-- Nothing but the two directories of the lineage. -/
def Bare (tree : Tree) : Prop :=
  ∀ e, (tree e).isSome → e = sampleWorld.archiveDir ∨ e = sampleWorld.liveDir

theorem Bare.update {tree : Tree} {x : Option Item} (h : Bare tree)
    (he : e = sampleWorld.archiveDir ∨ e = sampleWorld.liveDir) :
    Bare (Function.update tree e x) := by
  intro e' hsome
  by_cases heq : e' = e
  · rwa [heq]
  · rw [Function.update_of_ne heq] at hsome
    exact h e' hsome

theorem bare_none : Bare fun _ => none := nofun

theorem bare_samplePlace : Bare samplePlace := (bare_none.update (.inl rfl)).update (.inr rfl)

theorem Bare.mem_iff {tree : Tree} {sub : Sub} (h : Bare tree)
    (hsub : ∀ e ∈ es, e = sampleWorld.archiveDir ∨ e = sampleWorld.liveDir)
    (hes : ∀ e ∈ [sampleWorld.archiveDir, sampleWorld.liveDir], e ∈ es ↔ e.1 = sub ∧
      (tree e).isSome) (e : Entry) :
    e ∈ es ↔ e.1 = sub ∧ (tree e).isSome := by
  by_cases he : e ∈ [sampleWorld.archiveDir, sampleWorld.liveDir]
  · exact hes e he
  · have hnot : ¬ (e = sampleWorld.archiveDir ∨ e = sampleWorld.liveDir) := by simpa using he
    exact ⟨fun hm => absurd (hsub e hm) hnot, fun hm => absurd (h e hm.2) hnot⟩

theorem Bare.listing {sub : Sub} (h : Bare place) (hnodup : es.Nodup)
    (hsub : ∀ e ∈ es, e = sampleWorld.archiveDir ∨ e = sampleWorld.liveDir)
    (hes : ∀ e ∈ [sampleWorld.archiveDir, sampleWorld.liveDir], e ∈ es ↔ e.1 = sub ∧
      (place e).isSome) :
    Listed sampleWorld place sub es := by
  refine ⟨hnodup,
    fun e => (h.mem_iff hsub hes e).trans ⟨fun ⟨hs, hsome⟩ => ?_, fun ⟨hs, _, hsome, _⟩ =>
      ⟨hs, hsome⟩⟩⟩
  rcases h e hsome with rfl | rfl
  · exact ⟨hs, mine_archiveDir _, hsome, nofun⟩
  · exact ⟨hs, mine_liveDir _, hsome, nofun⟩

theorem ordinary_sample : Ordinary sampleStart := by
  intro item target name hitem hnode _
  have hlive : samplePlace sampleWorld.liveDir = some sampleLive := by
    rw [samplePlace, Function.update_self]
  obtain rfl := Option.some.inj (hlive.symm.trans hitem)
  cases (node_withNode ..).symm.trans hnode
  decide

/-- A crash after the archive is moved aside, and the recovery. -/
theorem kept_of_survivable_run_sample : ∃ s, Kept sampleStart s ∧ s.phase = .over := by
  let a := sampleWorld.archiveDir
  let listed₁ : State := { initial sampleStart with phase := .backing 1 [a] [] }
  let moved : State := { listed₁.moveAside a with phase := .backing 1 [] [a] }
  let recovering₁ : State := { moved with phase := .recovering 1 [] }
  let recovering₂ : State := { moved with phase := .recovering 2 [a] }
  let back : State := { recovering₂.putBack a with phase := .recovering 2 [] }
  have hbackup : Bare moved.backup := bare_none.update (.inl rfl)
  have hback : Bare back.backup := hbackup.update (.inl rfl)
  obtain ⟨s, hrun, hover⟩ : ∃ s, Run (Guarded (Step sampleWorld) (Survivable sampleStart))
    (initial sampleStart)
      [.list [a], .work, .crash, .recover, .list [], .list [a], .work, .list [], .list [], .work]
        s ∧ s.phase = .over := by
    refine ⟨_,
      .cons (t := listed₁)
        ⟨.listBackup rfl rfl (bare_samplePlace.listing (by decide) (by decide) (by decide)),
          trivial⟩
      (.cons (t := moved) ⟨.work rfl, trivial⟩
      (.cons ⟨.crash (by decide), fun f hf hne =>
        ⟨ordinary_sample, fun ⟨_, hphase, _⟩ => by cases hphase⟩⟩
      (.cons ⟨.recover rfl, trivial⟩
      (.cons (t := recovering₁)
        ⟨.listRecovery rfl rfl ⟨List.nodup_nil, hbackup.mem_iff (by decide) (by decide)⟩, trivial⟩
      (.cons (t := recovering₂)
        ⟨.listRecovery rfl rfl ⟨by decide, hbackup.mem_iff (by decide) (by decide)⟩, trivial⟩
      (.cons (t := back) ⟨.work ?_, trivial⟩
      (.cons ⟨.listRecovery rfl rfl ⟨List.nodup_nil, hback.mem_iff (by decide) (by decide)⟩,
        trivial⟩
      (.cons ⟨.listRecovery rfl rfl ⟨List.nodup_nil, hback.mem_iff (by decide) (by decide)⟩,
        trivial⟩
      (.cons ⟨.work rfl, trivial⟩ (.nil _)))))))))), rfl⟩
    rfl
  exact ⟨s, kept_of_survivable_run hrun, hover⟩

/-- Certbot fails when its link is there. The restore has put the archive back when the program
crashes, and the recovery takes the new link, which leads to the first certificate in the old
archive, for usable. -/
theorem first_certificate_kept : ¬ ∀ (w : World) (start : Start w) (acts : List Act) (s : State),
    Run (Step w) (initial start) acts s → Kept start s := by
  intro h
  let a := sampleWorld.archiveDir
  let l := sampleWorld.liveDir
  let listed₁ : State := { initial sampleStart with phase := .backing 1 [a] [] }
  let moved₁ : State := { listed₁.moveAside a with phase := .backing 1 [] [a] }
  let moved₂ : State := { moved₁.moveAside l with phase := .backing 2 [] [a, l] }
  let certbot₁ : State := { moved₂ with phase := .certbot [a, l] }
  let certbot₂ : State := { certbot₁.setPlace a emptyDir with made := [a] }
  let certbot₃ : State := { certbot₂.setPlace l emptyDir with made := [l, a] }
  let certbot₄ : State := certbot₃.setPlace l (liveLink "npm-1")
  let failed : State := { certbot₄ with phase := .restoring [a, l] }
  let back : State := { (failed.remove a).putBack a with phase := .restoring [l] }
  let kept : State := { back with phase := .recovering 1 [] }
  have hplace₁ : Bare moved₁.place := bare_samplePlace.update (.inl rfl)
  have hplace₂ : Bare moved₂.place := hplace₁.update (.inr rfl)
  have hbackup : Bare back.backup :=
    ((bare_none.update (.inl rfl)).update (.inr rfl)).update (.inl rfl)
  have hrun : Run (Step sampleWorld) (initial sampleStart) [.list [a], .work, .list [l], .work,
    .list [], .list [], .work,
      .certbot (.dir a), .certbot (.dir l), .certbot (.link "npm-1"), .exit false false, .work,
        .work, .crash, .recover,
      .list [l], .work, .list [], .list [], .list [], .work]
      { back with backup := fun _ => none, phase := .over } := by
    refine .cons (t := listed₁)
      (.listBackup rfl rfl (bare_samplePlace.listing (by decide) (by decide) (by decide)))
      (.cons (t := moved₁) (.work rfl)
      (.cons (.listBackup rfl rfl (hplace₁.listing (by decide) (by decide) (by decide)))
      (.cons (t := moved₂) (.work rfl)
      (.cons (.listBackup rfl rfl (hplace₂.listing List.nodup_nil (by decide) (by decide)))
      (.cons (.listBackup rfl rfl (hplace₂.listing List.nodup_nil (by decide) (by decide)))
      (.cons (t := certbot₁) (.work rfl)
      (.cons (t := certbot₂) (.certbot rfl (.dir (.inl rfl) (mine_archiveDir _) rfl))
      (.cons (t := certbot₃) (.certbot rfl (.dir (.inr rfl) (mine_liveDir _) rfl))
      (.cons (t := certbot₄) (.certbot rfl (.link (by decide)))
      (.cons (t := failed) (.exit rfl)
      (.cons (t := failed.remove a) (.work rfl)
      (.cons (t := back) (.work rfl)
      (.cons (.crash (by decide))
      (.cons (.recover rfl)
      (.cons (.listRecovery rfl rfl ⟨by decide, hbackup.mem_iff (by decide) (by decide)⟩)
      (.cons (t := kept) (.work rfl)
      (.cons (.listRecovery rfl rfl ⟨List.nodup_nil, hbackup.mem_iff (by decide) (by decide)⟩)
      (.cons (.listRecovery rfl rfl ⟨List.nodup_nil, hbackup.mem_iff (by decide) (by decide)⟩)
      (.cons (.listRecovery rfl rfl ⟨List.nodup_nil, hbackup.mem_iff (by decide) (by decide)⟩)
      (.cons (.work rfl) (.nil _)))))))))))))))))))))
  obtain ⟨g, hg, -, hright⟩ :=
    (h sampleWorld sampleStart _ _ hrun).1 rfl fifthFile (by decide) (by decide)
  have hfirst : resolve back.place sampleWorld.lineage = some firstFile := by decide
  obtain rfl := Option.some.inj (hfirst.symm.trans hg)
  revert hright
  decide

end FloppyGuard.Certificates.RenewalBackup
