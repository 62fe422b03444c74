import FloppyGuard.Lib.Numbered
import FloppyGuard.Lib.Run
import FloppyGuard.Ingress.Validator

/-! The filter on the agent's host (`ingressFunctions` and the ingress step of the poll loop in
`agent.js`), command by command: the chain FG_IN, the jump to it in FORWARD, the cached rules and
the hash that is reported. A command that reads the host first pushes the commands that follow from
what it reads. -/
namespace FloppyGuard.IngressGuard

open Ingress

/-- What `$INGRESS_RUN_HASH` holds: the word NONE or the hash of the rules. -/
inductive Applied
  | nothing
  | hash (h : String)
deriving DecidableEq

/-- `/run` is lost at a reboot; the cached rules and their hash stay. -/
structure Host where
  forward : List String
  chain : Option (List (List Char))
  applied : Option Applied
  cache : Option String
  cacheHash : Option String

def jump : String := "-A FORWARD -j FG_IN"

/-- The rules of a text. -/
def ruleLines (text : String) : List (List Char) :=
  (fileLines text).filter fun line => "-A".toList.isPrefixOf line

/-- One line for `iptables-restore --noflush`: the declaration makes or empties the chain, a rule
needs it. -/
def loadLine (chain : Option (List (List Char))) (line : List Char) :
    Option (Option (List (List Char))) :=
  if line = ":FG_IN - [0:0]".toList then some (some [])
  else if "-A".toList.isPrefixOf line then chain.map fun rules => some (rules ++ [line])
  else some chain

/-- The chain after the whole text, which takes effect at once or not at all. -/
def load (text : String) (chain : Option (List (List Char))) : Option (Option (List (List Char))) :=
  (fileLines text).foldlM loadLine chain

/-- Who calls `apply_ingress`: the poll loop, the self-heal or the start of the agent. -/
inductive Source
  | hub
  | heal
  | boot
deriving DecidableEq

/-- What the loop finds under `ingress` in the answer of the hub. -/
inductive Payload
  | absent
  | unreadable
  | mismatch
  | noFilter
  | rules (text hash : String)

inductive Cmd
  | ensureJump
  | insertJump
  | removeCopies
  | deleteForward (n : ℕ)
  | apply (source : Source) (text hash : String)
  | copyCache (text : String)
  | writeCacheHash (hash : String)
  | writeApplied (applied : Applied)
  | remove
  | detach
  | flush
  | dropChain
  | dropCache
  | dropCacheHash
  | heal
  | handle (payload : Payload)
  | boot

/-- The numbers of the jumps in FORWARD, from the bottom up, without the first rule. -/
def copyNumbers (forward : List String) : List ℕ :=
  (Numbered.numbers 1 (forward.map fun rule => (rule, rule == jump))).filter (· ≠ 1)

/-- What `apply_ingress` and its caller run once the rules are loaded. -/
def afterLoad (source : Source) (text hash : String) : List Cmd :=
  .ensureJump :: (if source = .hub then [.copyCache text] else []) ++ .writeCacheHash hash ::
    if source = .heal then [] else [.writeApplied (.hash hash)]

/-- One command; `ok` is false where the tool it calls fails. -/
def exec (ok : Bool) (h : Host) : Cmd → Host × List Cmd
  | .ensureJump =>
    if h.forward.head? = some jump ∧ h.forward.count jump = 1 then (h, [])
    else (h, (if h.forward.head? = some jump then [] else [.insertJump]) ++ [.removeCopies])
  | .insertJump => (if ok then { h with forward := jump :: h.forward } else h, [])
  | .removeCopies => (h, (copyNumbers h.forward).map .deleteForward)
  | .deleteForward n => (if ok then { h with forward := Numbered.delete h.forward n } else h, [])
  | .apply source text hash =>
    if ingressValid text && ok then
      match load text h.chain with
      | some chain => ({ h with chain := chain }, afterLoad source text hash)
      | none => (h, [])
    else (h, [])
  | .copyCache text => (if ok then { h with cache := some text } else h, [])
  | .writeCacheHash hash => (if ok then { h with cacheHash := some hash } else h, [])
  | .writeApplied applied => (if ok then { h with applied := some applied } else h, [])
  | .remove =>
    (h, (if h.chain.isSome then [.detach, .flush, .dropChain] else []) ++
      [.dropCache, .dropCacheHash])
  | .detach =>
    if jump ∈ h.forward ∧ ok then ({ h with forward := h.forward.erase jump }, [.detach])
    else (h, [])
  | .flush => (if ok then { h with chain := h.chain.map fun _ => [] } else h, [])
  | .dropChain =>
    (if ok ∧ h.chain = some [] ∧ jump ∉ h.forward then { h with chain := none } else h, [])
  | .dropCache => (if ok then { h with cache := none } else h, [])
  | .dropCacheHash => (if ok then { h with cacheHash := none } else h, [])
  | .heal =>
    match h.applied with
    | none | some .nothing => (h, [])
    | some (.hash cur) =>
      match h.chain, h.cache with
      | none, none => (h, [])
      | none, some text => (h, [.apply .heal text cur])
      | some _, none => (h, [.ensureJump])
      | some live, some text =>
        (h, if live.length = appendedRules text then [.ensureJump] else [.apply .heal text cur])
  | .handle .noFilter =>
    (h, if h.applied = some .nothing then [] else [.remove, .writeApplied .nothing])
  | .handle (.rules text hash) =>
    (h, if h.applied = some (.hash hash) then [] else [.apply .hub text hash])
  | .handle _ => (h, [])
  | .boot =>
    match h.applied, h.cache, h.cacheHash with
    | none, some text, some hash => (h, if hash = "" then [] else [.apply .boot text hash])
    | _, _, _ => (h, [])

/-- What others do to FG_IN: a bare `iptables -F` or a reload of the rules. -/
inductive Loss
  | kept
  | emptied
  | deleted

def Loss.of : Loss → Option (List (List Char)) → Option (List (List Char))
  | .kept, chain => chain
  | .emptied, chain => chain.map fun _ => []
  | .deleted, _ => none

/-- The agent runs `todo`; it may be stopped between any two commands. -/
structure State where
  host : Host
  todo : List Cmd

inductive Act
  | exec (ok : Bool)
  | tick
  | answer (payload : Payload)
  | restart
  | reboot (forward : List String)
  | outside (forward : List String) (loss : Loss)

def step (s : State) : Act → Option State
  | .exec ok =>
    match s.todo with
    | [] => none
    | c :: cs => some ⟨(exec ok s.host c).1, (exec ok s.host c).2 ++ cs⟩
  | .tick => if s.todo.isEmpty then some { s with todo := [.heal] } else none
  | .answer payload => if s.todo.isEmpty then some { s with todo := [.handle payload] } else none
  | .restart => some { s with todo := [.boot, .heal] }
  | .reboot forward =>
    if jump ∈ forward then none
    else some ⟨{ s.host with forward := forward, chain := none, applied := none }, [.boot, .heal]⟩
  | .outside forward loss =>
    some { s with host := { s.host with forward := forward, chain := loss.of s.host.chain } }

/-- The text of a filter the hub builds. -/
def Built (text : String) : Prop :=
  ∃ inp rules out, buildIngressRestore inp rules = .ok (some out) ∧ text = out.text

/-- Every forwarded packet goes through the rules of a filter the hub built. -/
def On (h : Host) : Prop :=
  h.forward.head? = some jump ∧ ∃ text, Built text ∧ h.chain = some (ruleLines text)

/-- The rules of FORWARD that are not the agent's. -/
def others (h : Host) : List String := h.forward.filter (· ≠ jump)

variable {h h' : Host} {s t : State} {text : String}

/-! What a text of the hub loads. -/

theorem filter_render (rules : List Line) (h : ∀ ln ∈ rules, ln.appends = true) :
    (rules.map (·.render.toList)).filter (fun line => "-A".toList.isPrefixOf line) = rules.map
    (·.render.toList) := by
  refine List.filter_eq_self.mpr fun line hline => ?_
  obtain ⟨ln, hln, rfl⟩ := List.mem_map.mp hline
  rw [isPrefixOf_render]
  exact h ln hln

/-- A text the hub builds declares the chain and then appends rules to it. -/
theorem Built.lines (hb : Built text) : ∃ rules : List (List Char), rules ≠ [] ∧
    rules.filter (fun line => "-A".toList.isPrefixOf line) = rules ∧
    fileLines text = "*filter".toList :: ":FG_IN - [0:0]".toList :: (rules ++ ["COMMIT".toList]) ∧
    appendedRules text = rules.length ∧ ingressValid text = true := by
  obtain ⟨inp, rules, out, hout, rfl⟩ := hb
  obtain ⟨hbuild, rfl⟩ := buildIngressRestore_some hout
  have hne : (restoreOf inp rules).lines ≠ [] := by simp [restoreOf]
  have hclean := clean_restoreOf hbuild
  have happends : ∀ ln ∈ Line.established inp.target :: (allRuleLines inp rules ++ finalDrops inp),
      ln.appends = true := by
    intro ln hln
    rw [← filter_appends] at hln
    exact (List.mem_filter.mp hln).2
  have hlines : fileLines (restoreOf inp rules).text = "*filter".toList ::
    ":FG_IN - [0:0]".toList ::
      ((Line.established inp.target :: (allRuleLines inp rules ++ finalDrops inp)).map
        (·.render.toList) ++
        ["COMMIT".toList]) := by
    rw [fileLines_text hne hclean]
    simp only [restoreOf, List.map_append, List.map_cons, List.map_nil, List.cons_append,
      List.nil_append, List.append_assoc]
    rfl
  refine ⟨_, by simp, filter_render _ happends, hlines, ?_, ?_⟩
  · have hrender : (fun line => "-A".toList.isPrefixOf line) ∘ (fun ln : Line => ln.render.toList) =
        Line.appends :=
      funext fun _ => isPrefixOf_render
    rw [appendedRules, splitOn_text hne hclean, List.countP_append, List.countP_map, hrender,
      List.countP_eq_length_filter, filter_appends, List.length_map]
    simp
  · have hvalid : (fileLines (restoreOf inp rules).text).all lineValid = true := by
      rw [fileLines_text hne hclean, List.all_map, List.all_eq_true]
      exact fun ln hln => lineValid_render (hclean ln hln)
    have hcommit : (fileLines (restoreOf inp rules).text).contains "COMMIT".toList = true := by
      rw [hlines]
      simp
    have hfirst : (fileLines (restoreOf inp rules).text).head? = some "*filter".toList := by
      rw [hlines]
      rfl
    rw [ingressValid, hvalid, hcommit, hfirst]
    rfl

theorem foldlM_loadLine {lines : List (List Char)}
    (h : lines.filter (fun line => "-A".toList.isPrefixOf line) = lines)
    (done : List (List Char)) :
    lines.foldlM loadLine (some done) = some (some (done ++ lines)) := by
  induction lines generalizing done with
  | nil => simp
  | cons line lines ih =>
    obtain ⟨hline, hrest⟩ := List.forall_mem_cons.mp (List.filter_eq_self.mp h)
    have hnot : line ≠ ":FG_IN - [0:0]".toList := by
      rintro rfl
      exact absurd hline (by decide)
    have hload : loadLine (some done) line = some (some (done ++ [line])) := by
      rw [loadLine, if_neg hnot, if_pos hline]
      rfl
    have hih := ih (List.filter_eq_self.mpr hrest) (done ++ [line])
    rw [List.append_assoc] at hih
    rw [List.foldlM_cons, hload]
    exact hih

/-- Whatever the chain was, it holds the rules of the text afterwards. -/
theorem Built.load (hb : Built text) (chain : Option (List (List Char))) :
    IngressGuard.load text chain = some (some (ruleLines text)) := by
  obtain ⟨rules, -, hfilter, hlines, -⟩ := hb.lines
  have hrules : ruleLines text = rules := by
    have htable : "-A".toList.isPrefixOf "*filter".toList = false := by decide
    have hchain : "-A".toList.isPrefixOf ":FG_IN - [0:0]".toList = false := by decide
    have hcommit : ["COMMIT".toList].filter (fun line => "-A".toList.isPrefixOf line) = [] := by
      decide
    rw [ruleLines, hlines, List.filter_cons_of_neg (by rw [htable]; decide),
      List.filter_cons_of_neg (by rw [hchain]; decide),
      List.filter_append, hfilter, hcommit, List.append_nil]
  have htable : loadLine chain "*filter".toList = some chain := by
    rw [loadLine, if_neg (by decide), if_neg (by decide)]
  have hchain : loadLine chain ":FG_IN - [0:0]".toList = some (some []) := by
    rw [loadLine, if_pos rfl]
  have hcommit : loadLine (some rules) "COMMIT".toList = some (some rules) := by
    rw [loadLine, if_neg (by decide), if_neg (by decide)]
  have hfold := foldlM_loadLine hfilter []
  rw [List.nil_append] at hfold
  rw [IngressGuard.load, hlines, hrules, List.foldlM_cons, htable, Option.bind_eq_bind,
    Option.bind_some, List.foldlM_cons,
    hchain, Option.bind_eq_bind, Option.bind_some, List.foldlM_append, hfold, Option.bind_eq_bind,
      Option.bind_some,
    List.foldlM_cons, hcommit]
  rfl

theorem Built.valid (hb : Built text) : ingressValid text = true := by
  obtain ⟨-, -, -, -, -, hvalid⟩ := hb.lines
  exact hvalid

theorem Built.appendedRules_pos (hb : Built text) : 0 < appendedRules text := by
  obtain ⟨rules, hne, -, -, hcount, -⟩ := hb.lines
  rw [hcount]
  exact List.length_pos_iff.mpr hne

/-! Commands that all succeed. -/

/-- The commands end, each of them having succeeded, with the second host. -/
inductive Finish : Host → List Cmd → Host → Prop
  | nil (h : Host) : Finish h [] h
  | cons {h h' : Host} {c : Cmd} {cs : List Cmd} :
      Finish (exec true h c).1 ((exec true h c).2 ++ cs) h' → Finish h (c :: cs) h'

theorem Finish.append {h'' : Host} {cs ds : List Cmd} (hf : Finish h cs h')
    (hg : Finish h' ds h'') :
    Finish h (cs ++ ds) h'' := by
  induction hf with
  | nil => exact hg
  | cons _ ih =>
    have hrest := ih hg
    rw [List.append_assoc] at hrest
    exact .cons hrest

theorem finish_deletes (ns : List ℕ) (h : Host) :
    Finish h (ns.map .deleteForward) { h with forward := ns.foldl Numbered.delete h.forward } := by
  induction ns generalizing h with
  | nil => exact .nil h
  | cons n ns ih => exact .cons (ih { h with forward := Numbered.delete h.forward n })

/-- The rules of a list with the marks that `grep -nxF` sets. -/
def marks (rules : List String) : List (String × Bool) := rules.map fun rule => (rule, rule == jump)

theorem entries_marks (rules : List String) : Numbered.entries (marks rules) = rules := by
  rw [Numbered.entries, marks, List.map_map]
  exact List.map_id rules

theorem kept_marks (rules : List String) :
    Numbered.kept (marks rules) = rules.filter (· ≠ jump) := by
  induction rules with
  | nil => rfl
  | cons rule rules ih =>
    have hcons : marks (rule :: rules) = (rule, rule == jump) :: marks rules := rfl
    rw [hcons, List.filter_cons, ← ih]
    by_cases hrule : rule = jump <;> simp [Numbered.kept, Numbered.entries, hrule]

theorem copyNumbers_cons (rest : List String) :
    copyNumbers (jump :: rest) = Numbered.numbers 2 (marks rest) := by
  have hnumbers : Numbered.numbers 1 ((jump :: rest).map fun rule => (rule, rule == jump)) =
      Numbered.numbers 2 (marks rest) ++ [1] := by
    rw [List.map_cons, Numbered.numbers]
    simp [marks]
  have hall : (Numbered.numbers 2 (marks rest)).filter (· ≠ 1) = Numbered.numbers 2
      (marks rest) := by
    refine List.filter_eq_self.mpr fun n hn => ?_
    have hle := Numbered.le_of_mem_numbers hn
    exact decide_eq_true (by omega)
  rw [copyNumbers, hnumbers, List.filter_append, hall]
  simp

theorem finish_removeCopies {rest : List String} (hf : h.forward = jump :: rest) :
    Finish h [.removeCopies] { h with forward := jump :: rest.filter (· ≠ jump) } := by
  refine .cons ?_
  have hdel := finish_deletes (Numbered.numbers 2 (marks rest)) h
  have hall := Numbered.delete_all (m := marks rest) [jump] (k := 2) rfl
  rw [entries_marks, kept_marks] at hall
  rw [hf, ← List.singleton_append, hall] at hdel
  simpa [exec, hf, copyNumbers_cons] using hdel

theorem filter_others {rest : List String} (hf : h.forward = jump :: rest) :
    others h = rest.filter (· ≠ jump) := by
  rw [others, hf]
  exact List.filter_cons_of_neg (by simp)

/-- `ensure_ingress_jump` leaves the jump once, in front, and the other rules as they are. -/
theorem finish_ensureJump (h : Host) :
    Finish h [.ensureJump] { h with forward := jump :: others h } := by
  by_cases hhead : h.forward.head? = some jump
  · obtain ⟨rest, hrest⟩ := List.head?_eq_some_iff.mp hhead
    rw [filter_others hrest]
    by_cases hcount : h.forward.count jump = 1
    · have hnone : jump ∉ rest := by
        rw [hrest, List.count_cons_self] at hcount
        exact List.count_eq_zero.mp (by omega)
      have hsame : rest.filter (· ≠ jump) = rest := by
        refine List.filter_eq_self.mpr fun rule hrule => decide_eq_true ?_
        rintro rfl
        exact hnone hrule
      refine .cons ?_
      rw [hsame, ← hrest]
      simpa [exec, hhead, hcount] using Finish.nil h
    · refine .cons ?_
      simpa [exec, hhead, hcount] using finish_removeCopies hrest
  · refine .cons ?_
    have hinsert : Finish h [.insertJump] { h with forward := jump :: h.forward } := .cons (.nil _)
    have hremove := finish_removeCopies (h := { h with forward := jump :: h.forward }) rfl
    simpa [exec, hhead, others] using hinsert.append hremove

theorem exec_apply (hb : Built text) (source : Source) (hash : String) (h : Host) :
    exec true h (.apply source text hash) = ({ h with chain := some (ruleLines text) },
      afterLoad source text hash) := by
  simp [exec, hb.valid, hb.load]

/-- `apply_ingress` with the cached rules of the hub. -/
theorem finish_heal_apply (hb : Built text) (hash : String) (h : Host) :
    Finish h [.apply .heal text hash] { h with
      forward := jump :: others h, chain := some (ruleLines text), cacheHash := some hash } := by
  refine .cons ?_
  have hjump := finish_ensureJump { h with chain := some (ruleLines text) }
  have hwrite : Finish { h with forward := jump :: others h, chain := some (ruleLines text) }
    [.writeCacheHash hash]
      { h with
        forward := jump :: others h, chain := some (ruleLines text),
        cacheHash := some hash } := .cons (.nil _)
  rw [exec_apply hb]
  simpa [afterLoad, others] using hjump.append hwrite

/-- The rules of an answer, when the commands succeed. -/
theorem finish_handle (hb : Built text) {hash : String} (hnew : h.applied ≠ some (.hash hash)) :
    Finish h [.handle (.rules text hash)]
      ⟨jump :: others h, some (ruleLines text), some (.hash hash), some text, some hash⟩ := by
  have hjump := finish_ensureJump { h with chain := some (ruleLines text) }
  have hfiles : Finish { h with forward := jump :: others h, chain := some (ruleLines text) }
      [.copyCache text, .writeCacheHash hash, .writeApplied (.hash hash)]
      ⟨jump :: others h, some (ruleLines text), some (.hash hash), some text, some hash⟩ :=
    .cons (.cons (.cons (.nil _)))
  have hload : Finish h [.apply .hub text hash]
      ⟨jump :: others h, some (ruleLines text), some (.hash hash), some text, some hash⟩ := by
    refine .cons ?_
    rw [exec_apply hb]
    simpa [afterLoad, others] using hjump.append hfiles
  exact .cons (by simpa [exec, hnew] using hload)

/-! Whole runs. -/

abbrev Steps (s : State) (a : Act) (t : State) : Prop := step s a = some t

/-- The payloads are the hub's. -/
def Payload.Built : Payload → Prop
  | .rules text _ => IngressGuard.Built text
  | _ => True

/-- FG_IN is missing, emptied, or holds the rules of a text of the hub. -/
def Sound (chain : Option (List (List Char))) : Prop :=
  ∀ rules, chain = some rules → rules = [] ∨ ∃ text, Built text ∧ rules = ruleLines text

/-- The commands that are left keep the cache in step with the hash; `cached` says whether there is
a cache when they start. -/
def Ready (cached : Bool) : List Cmd → Prop
  | [] => True
  | .apply source text _ :: cs => Built text ∧ (source = .boot → cached = true) ∧ Ready cached cs
  | .copyCache text :: cs => Built text ∧ Ready true cs
  | .writeApplied (.hash _) :: cs => cached = true ∧ Ready cached cs
  | .remove :: cs | .dropCache :: cs => Cmd.writeApplied .nothing ∈ cs ∧ Ready false cs
  | .handle payload :: cs => payload.Built ∧ cs = []
  | _ :: cs => Ready cached cs

theorem Ready.mono {cached : Bool} {cs : List Cmd} (h : Ready cached cs) : Ready true cs := by
  induction cs generalizing cached with
  | nil => trivial
  | cons c cs ih =>
    cases c with
    | apply => exact ⟨h.1, fun _ => rfl, ih h.2.2⟩
    | copyCache => exact h
    | writeApplied applied =>
      cases applied with
      | nothing => exact @ih cached h
      | hash => exact ⟨rfl, ih h.2⟩
    | remove | dropCache | handle => exact h
    | ensureJump | insertJump | removeCopies | deleteForward | writeCacheHash | detach | flush
        | dropChain | dropCacheHash |
      heal | boot => exact @ih cached h

theorem ready_deletes {cached : Bool} {cs : List Cmd} (ns : List ℕ) (h : Ready cached cs) :
    Ready cached (ns.map .deleteForward ++ cs) := by
  induction ns with
  | nil => exact h
  | cons n ns ih => exact ih

/-- What holds at every moment of a run. -/
structure Inv (s : State) : Prop where
  cache : ∀ text, s.host.cache = some text → Built text
  chain : Sound s.host.chain
  stored : ∀ hash, s.host.applied = some (.hash hash) → s.host.cache.isSome = true ∨
    Cmd.writeApplied .nothing ∈ s.todo
  ready : Ready s.host.cache.isSome s.todo

/-- The steps that are allowed for: others change the rules between two turns of the loop, the agent
is not stopped within a removal, and the state files can be written. -/
def Calm (s : State) : Act → Prop
  | .answer payload => payload.Built
  | .outside _ _ => s.todo = []
  | .restart | .reboot _ => Cmd.writeApplied .nothing ∉ s.todo
  | .exec ok =>
    ok = false → ∀ c ∈ s.todo.head?, (∀ text, c ≠ .copyCache text) ∧ ∀ applied,
      c ≠ .writeApplied applied
  | .tick => True

theorem Sound.of_built (hb : Built text) : Sound (some (ruleLines text)) := by
  intro rules hrules
  cases hrules
  exact .inr ⟨text, hb, rfl⟩

theorem Sound.lost {chain : Option (List (List Char))} (h : Sound chain) (loss : Loss) :
    Sound (loss.of chain) := by
  cases loss with
  | kept => exact h
  | emptied =>
    intro rules hrules
    obtain ⟨_, -, rfl⟩ := Option.map_eq_some_iff.mp hrules
    exact .inl rfl
  | deleted =>
    intro rules hrules
    cases hrules

/-- What a command leaves behind keeps the invariant. -/
theorem Inv.exec {ok : Bool} {c : Cmd} {cs : List Cmd} (hi : Inv ⟨h, c :: cs⟩)
    (hcalm : Calm ⟨h, c :: cs⟩ (.exec ok)) :
    Inv ⟨(exec ok h c).1, (exec ok h c).2 ++ cs⟩ := by
  obtain ⟨hcache, hchain, hstored, hready⟩ := hi
  -- a command other than the write of NONE leaves that write where it is
  have hother : c ≠ .writeApplied .nothing → ∀ hash, h.applied = some (.hash hash) →
      h.cache.isSome = true ∨ Cmd.writeApplied .nothing ∈ cs := by
    intro hne hash happlied
    rcases hstored hash happlied with hsome | hmem
    · exact .inl hsome
    · rcases List.mem_cons.mp hmem with heq | hmem
      · exact absurd heq.symm hne
      · exact .inr hmem
  have hquiet : c ≠ .writeApplied .nothing → Ready h.cache.isSome cs → Inv ⟨h, cs⟩ :=
    fun hne hrest => ⟨hcache, hchain, hother hne, hrest⟩
  have hpush : ∀ new : List Cmd, c ≠ .writeApplied .nothing → Ready h.cache.isSome (new ++ cs) →
      Inv ⟨h, new ++ cs⟩ := by
    intro new hne hrest
    refine ⟨hcache, hchain, ?_, hrest⟩
    intro hash happlied
    rcases hother hne hash happlied with hsome | hmem
    · exact .inl hsome
    · exact .inr (List.mem_append_right _ hmem)
  cases c with
  | ensureJump =>
    simp only [IngressGuard.exec]
    split
    · exact hquiet (by simp) hready
    · split
      · exact hpush [.removeCopies] (by simp) hready
      · exact hpush [.insertJump, .removeCopies] (by simp) hready
  | insertJump =>
    cases ok with
    | false => exact hquiet (by simp) hready
    | true => exact ⟨hcache, hchain, hother (by simp), hready⟩
  | removeCopies => exact hpush _ (by simp) (ready_deletes _ hready)
  | deleteForward n =>
    cases ok with
    | false => exact hquiet (by simp) hready
    | true => exact ⟨hcache, hchain, hother (by simp), hready⟩
  | apply source text hash =>
    obtain ⟨hb, hboot, hrest⟩ := hready
    simp only [IngressGuard.exec]
    split
    · rw [hb.load]
      have hnext : Ready h.cache.isSome (afterLoad source text hash ++ cs) := by
        cases source with
        | hub => exact ⟨hb, rfl, hrest.mono⟩
        | heal => exact hrest
        | boot => exact ⟨hboot rfl, hrest⟩
      have hkeep := hpush _ (by simp) hnext
      exact ⟨hkeep.cache, .of_built hb, hkeep.stored, hkeep.ready⟩
    · exact hquiet (by simp) hrest
  | copyCache text =>
    obtain ⟨hb, hrest⟩ := hready
    cases ok with
    | false => exact absurd rfl ((hcalm rfl _ rfl).1 text)
    | true =>
      refine ⟨?_, hchain, fun _ _ => .inl rfl, hrest⟩
      intro text' hsome
      cases hsome
      exact hb
  | writeCacheHash hash =>
    cases ok with
    | false => exact hquiet (by simp) hready
    | true => exact ⟨hcache, hchain, hother (by simp), hready⟩
  | writeApplied applied =>
    cases ok with
    | false => exact absurd rfl ((hcalm rfl _ rfl).2 applied)
    | true =>
      cases applied with
      | nothing =>
        refine ⟨hcache, hchain, ?_, hready⟩
        intro hash happlied
        cases happlied
      | hash => exact ⟨hcache, hchain, fun _ _ => .inl hready.1, hready.2⟩
  | remove =>
    obtain ⟨hmem, hrest⟩ := hready
    have hdrop : Ready h.cache.isSome (.dropCache :: .dropCacheHash :: cs) :=
      ⟨List.mem_cons_of_mem _ hmem, hrest⟩
    simp only [IngressGuard.exec]
    split
    · exact hpush [.detach, .flush, .dropChain, .dropCache, .dropCacheHash] (by simp) hdrop
    · exact hpush [.dropCache, .dropCacheHash] (by simp) hdrop
  | detach =>
    simp only [IngressGuard.exec]
    split
    · have hkeep := hpush [.detach] (by simp) hready
      exact ⟨hkeep.cache, hkeep.chain, hkeep.stored, hkeep.ready⟩
    · exact hquiet (by simp) hready
  | flush =>
    cases ok with
    | false => exact hquiet (by simp) hready
    | true => exact ⟨hcache, hchain.lost .emptied, hother (by simp), hready⟩
  | dropChain =>
    simp only [IngressGuard.exec]
    split
    · exact ⟨hcache, hchain.lost .deleted, hother (by simp), hready⟩
    · exact hquiet (by simp) hready
  | dropCache =>
    obtain ⟨hmem, hrest⟩ := hready
    cases ok with
    | false =>
      refine hquiet (by simp) ?_
      cases hsome : h.cache.isSome with
      | false => exact hrest
      | true => exact hrest.mono
    | true =>
      refine ⟨?_, hchain, fun _ _ => .inr hmem, hrest⟩
      intro text hsome
      cases hsome
  | dropCacheHash =>
    cases ok with
    | false => exact hquiet (by simp) hready
    | true => exact ⟨hcache, hchain, hother (by simp), hready⟩
  | heal =>
    simp only [IngressGuard.exec]
    split
    · exact hquiet (by simp) hready
    · exact hquiet (by simp) hready
    · split
      · exact hquiet (by simp) hready
      · next text _ hsome =>
        exact hpush [.apply .heal text _] (by simp) ⟨hcache text hsome, by simp, hready⟩
      · exact hpush [.ensureJump] (by simp) hready
      · next text _ hsome =>
        split
        · exact hpush [.ensureJump] (by simp) hready
        · exact hpush [.apply .heal text _] (by simp) ⟨hcache text hsome, by simp, hready⟩
  | handle payload =>
    obtain ⟨hb, rfl⟩ := hready
    cases payload with
    | absent | unreadable | mismatch => exact hquiet (by simp) trivial
    | noFilter =>
      simp only [IngressGuard.exec]
      split
      · exact hquiet (by simp) trivial
      · exact hpush [.remove, .writeApplied .nothing] (by simp) ⟨by simp, trivial⟩
    | rules text hash =>
      simp only [IngressGuard.exec]
      split
      · exact hquiet (by simp) trivial
      · exact hpush [.apply .hub text hash] (by simp) ⟨hb, by simp, trivial⟩
  | boot =>
    simp only [IngressGuard.exec]
    split
    · next text hash _ hsome _ =>
      split
      · exact hquiet (by simp) hready
      · refine hpush [.apply .boot text hash] (by simp) ⟨hcache text hsome, fun _ => ?_, hready⟩
        rw [hsome]
        rfl
    · exact hquiet (by simp) hready

theorem Finish.run {cs : List Cmd} (hf : Finish h cs h') :
    ∃ n, Run (Guarded Steps Calm) ⟨h, cs⟩ (List.replicate n (.exec true)) ⟨h', []⟩ := by
  induction hf with
  | nil h => exact ⟨0, .nil _⟩
  | cons _ ih =>
    obtain ⟨n, hrun⟩ := ih
    exact ⟨n + 1, .cons ⟨rfl, by simp [Calm]⟩ hrun⟩

theorem step_apply (hb : Built text) (source : Source) (hash : String) (h : Host) :
    Steps ⟨h, [.apply source text hash]⟩ (.exec true) ⟨{ h with chain := some (ruleLines text) },
      afterLoad source text hash⟩ := by
  simp only [Steps, step, exec_apply hb, List.append_nil]

theorem inv_step (s : State) (a : Act) (t : State) (hs : Steps s a t) (hcalm : Calm s a)
    (hi : Inv s) : Inv t := by
  obtain ⟨hcache, hchain, hstored, hready⟩ := id hi
  obtain ⟨h, todo⟩ := s
  -- without the write of NONE ahead, the cache is there
  have hcached : Cmd.writeApplied .nothing ∉ todo → ∀ hash, h.applied = some (.hash hash) →
      h.cache.isSome = true :=
    fun hno hash happlied => (hstored hash happlied).resolve_right hno
  cases a with
  | exec ok =>
    cases todo with
    | nil => cases hs
    | cons c cs =>
      cases hs
      exact hi.exec hcalm
  | tick =>
    simp only [Steps, step] at hs
    split at hs
    · next hidle =>
      obtain rfl := List.isEmpty_iff.mp hidle
      cases hs
      exact ⟨hcache, hchain, fun hash happlied => .inl (hcached (by simp) hash happlied), trivial⟩
    · cases hs
  | answer payload =>
    simp only [Steps, step] at hs
    split at hs
    · next hidle =>
      obtain rfl := List.isEmpty_iff.mp hidle
      cases hs
      exact ⟨hcache, hchain, fun hash happlied => .inl (hcached (by simp) hash happlied), hcalm,
        rfl⟩
    · cases hs
  | restart =>
    cases hs
    exact ⟨hcache, hchain, fun hash happlied => .inl (hcached hcalm hash happlied), trivial⟩
  | reboot forward =>
    simp only [Steps, step] at hs
    split at hs
    · cases hs
    · cases hs
      refine ⟨hcache, hchain.lost .deleted, ?_, trivial⟩
      intro hash happlied
      cases happlied
  | outside forward loss =>
    cases hs
    exact ⟨hcache, hchain.lost loss, hstored, hready⟩

/-- A host the agent has just been installed on. -/
structure Fresh (s : State) : Prop where
  chain : s.host.chain = none
  applied : s.host.applied = none
  cache : s.host.cache = none
  todo : s.todo = []

theorem Fresh.inv (h : Fresh s) : Inv s := by
  refine ⟨?_, ?_, ?_, ?_⟩
  · intro text htext
    rw [h.cache] at htext
    cases htext
  · intro rules hrules
    rw [h.chain] at hrules
    cases hrules
  · intro hash happlied
    rw [h.applied] at happlied
    cases happlied
  · rw [h.todo]
    trivial

/-- The self-heal, when its commands succeed. -/
theorem finish_heal (hcache : ∀ text, h.cache = some text → Built text) (hchain : Sound h.chain)
    (hsome : h.cache.isSome = true) {cur : String} (happlied : h.applied = some (.hash cur)) :
    ∃ h', Finish h [.heal] h' ∧ h'.forward = jump :: others h ∧ ∃ text, Built text ∧
    h'.chain = some (ruleLines text) := by
  obtain ⟨text, htext⟩ := Option.isSome_iff_exists.mp hsome
  have hb := hcache text htext
  have hload := finish_heal_apply hb cur h
  have hjump := finish_ensureJump h
  cases hlive : h.chain with
  | none =>
    exact ⟨_, .cons (by simpa [exec, happlied, hlive, htext] using hload), rfl, text, hb, rfl⟩
  | some live =>
    by_cases hcount : live.length = appendedRules text
    · refine ⟨_, .cons (by simpa [exec, happlied, hlive, htext, hcount] using hjump), rfl, ?_⟩
      rcases hchain live hlive with rfl | ⟨text', hb', rfl⟩
      · have hpos := hb.appendedRules_pos
        rw [← hcount] at hpos
        exact absurd hpos (by simp)
      · exact ⟨text', hb', rfl⟩
    · exact ⟨_, .cons (by simpa [exec, happlied, hlive, htext, hcount] using hload), rfl, text, hb,
        rfl⟩

/-- After any calm run, a turn of the loop whose commands succeed has every forwarded packet go
through a filter of the hub again, as long as the agent reports one: the jump is there once, in
front, and the rules of others are as they were. -/
theorem turn_restores_filter {xs : List Act} {cur : String} (hstart : Fresh s)
    (hrun : Run (Guarded Steps Calm) s xs t)
    (hidle : t.todo = []) (happlied : t.host.applied = some (.hash cur)) :
    ∃ n u, Run Steps t (.tick :: List.replicate n (.exec true)) u ∧ u.todo = [] ∧ On u.host ∧
      u.host.forward.count jump = 1 ∧ others u.host = others t.host := by
  obtain ⟨hcache, hchain, hstored, -⟩ := hrun.guarded_invariant inv_step hstart.inv
  have hsome : t.host.cache.isSome = true := (hstored cur happlied).resolve_right (by simp [hidle])
  obtain ⟨h', hfinish, hforward, hlive⟩ := finish_heal hcache hchain hsome happlied
  obtain ⟨n, hrest⟩ := hfinish.run
  have htick : Steps t .tick ⟨t.host, [.heal]⟩ := by simp [Steps, step, hidle]
  have hothers : (others t.host).filter (· ≠ jump) = others t.host := by simp [others]
  have hnone : (others t.host).count jump = 0 := List.count_eq_zero.mpr (by simp [others])
  refine ⟨n, ⟨h', []⟩, .cons htick hrest.of_guarded, rfl, ⟨?_, hlive⟩, ?_, ?_⟩
  · rw [hforward]
    rfl
  · rw [hforward, List.count_cons_self, hnone]
  · rw [filter_others hforward, hothers]

def sampleText : String := (restoreOf sampleInput sampleRules).text

theorem sampleText_built : Built sampleText :=
  ⟨sampleInput, sampleRules, _, sampleInput_builds, rfl⟩

def dockerRule : String := "-A FORWARD -i docker0 -j ACCEPT"

def sampleHost : Host := ⟨[dockerRule], none, none, none, none⟩

def filteredHost : Host :=
  ⟨[jump, dockerRule], some (ruleLines sampleText), some (.hash "5f3c"), some sampleText,
    some "5f3c"⟩

theorem sample_filtered :
    ∃ xs, Run (Guarded Steps Calm) ⟨sampleHost, []⟩ xs ⟨filteredHost, []⟩ := by
  have hanswer : Guarded Steps Calm ⟨sampleHost, []⟩ (.answer (.rules sampleText "5f3c"))
      ⟨sampleHost, [.handle (.rules sampleText "5f3c")]⟩ := ⟨rfl, sampleText_built⟩
  have hfinish :=
    @finish_handle sampleHost sampleText sampleText_built "5f3c" (by simp [sampleHost])
  obtain ⟨n, hrun⟩ := hfinish.run
  exact ⟨_, .cons hanswer hrun⟩

/-- The filter arrives, and a reload of the host's rules takes it away. -/
theorem sample_loss : ∃ xs, Run (Guarded Steps Calm) ⟨sampleHost, []⟩ xs
    ⟨{ filteredHost with forward := [dockerRule], chain := none }, []⟩ := by
  obtain ⟨xs, hrun⟩ := sample_filtered
  have hreload : Guarded Steps Calm ⟨filteredHost, []⟩ (.outside [dockerRule] .deleted)
      ⟨{ filteredHost with forward := [dockerRule], chain := none }, []⟩ := ⟨rfl, rfl⟩
  exact ⟨_, hrun.append (.single hreload)⟩

theorem turn_restores_filter_sample : ∃ n u,
    Run Steps ⟨{ filteredHost with forward := [dockerRule], chain := none }, []⟩
      (.tick :: List.replicate n (.exec true)) u ∧
    u.todo = [] ∧ On u.host ∧ u.host.forward.count jump = 1 ∧
    others u.host = others { filteredHost with forward := [dockerRule], chain := none } := by
  obtain ⟨xs, hrun⟩ := sample_loss
  exact turn_restores_filter ⟨rfl, rfl, rfl, rfl⟩ hrun rfl rfl

/-! A filter that is on. -/

/-- Only a hub that keeps the filter, and nobody else who changes the rules. -/
def Restricted (_ : State) : Act → Prop
  | .answer .noFilter | .reboot _ | .outside .. => False
  | .answer payload => payload.Built
  | _ => True

/-- A command that neither takes the filter away nor puts a second jump in front. -/
def Tame : Cmd → Prop
  | .insertJump | .remove | .detach | .flush | .dropChain | .dropCache | .dropCacheHash
      | .handle .noFilter => False
  | .apply _ text _ | .copyCache text => Built text
  | .handle payload => payload.Built
  | _ => True

/-- The deletions that are left take jumps only, and never the first one. -/
structure Pending (forward : List String) (todo : List Cmd) (m : List (String × Bool))
    (cs : List Cmd) : Prop where
  todo : todo = (Numbered.numbers 2 m).map .deleteForward ++ cs
  rest : ∀ n, Cmd.deleteForward n ∉ cs
  forward : forward = jump :: Numbered.entries m
  jumps : ∀ x ∈ m, x.2 = true → x.1 = jump

structure Kept (rules : List String) (s : State) : Prop where
  chain : ∃ text, Built text ∧ s.host.chain = some (ruleLines text)
  cache : ∀ text, s.host.cache = some text → Built text
  tame : ∀ c ∈ s.todo, Tame c
  pending : ∃ m cs, Pending s.host.forward s.todo m cs
  others : others s.host = rules

/-- A tame command other than a deletion. -/
def Plain (c : Cmd) : Prop := Tame c ∧ ∀ n, c ≠ .deleteForward n

/-- What a plain command does: FORWARD stays, FG_IN holds rules of the hub afterwards as well, and
plain commands follow. -/
structure Tamed (forward : List String) (h : Host) (new : List Cmd) : Prop where
  forward : h.forward = forward
  chain : ∃ text, Built text ∧ h.chain = some (ruleLines text)
  cache : ∀ text, h.cache = some text → Built text
  plain : ∀ c ∈ new, Plain c

theorem plain_afterLoad (hb : Built text) (source : Source) (hash : String) :
    ∀ c ∈ afterLoad source text hash, Plain c := by
  cases source <;> simp [afterLoad, Plain, Tame, hb]

theorem exec_plain {ok : Bool} {c : Cmd} (hc : Plain c) (hno : c ≠ .removeCopies)
    (hhead : h.forward.head? = some jump)
    (hcache : ∀ text, h.cache = some text → Built text)
    (hchain : ∃ text, Built text ∧ h.chain = some (ruleLines text)) :
    Tamed h.forward (exec ok h c).1 (exec ok h c).2 := by
  have hsame : ∀ new : List Cmd, (∀ c ∈ new, Plain c) → Tamed h.forward h new :=
    fun new hnew => ⟨rfl, hchain, hcache, hnew⟩
  have hnil : Tamed h.forward h [] := hsame [] (by simp)
  obtain ⟨hc, hdel⟩ := hc
  cases c with
  | insertJump | remove | detach | flush | dropChain | dropCache | dropCacheHash => exact hc.elim
  | deleteForward n => exact absurd rfl (hdel n)
  | removeCopies => exact absurd rfl hno
  | ensureJump =>
    simp only [exec, hhead, if_true, List.nil_append]
    split
    · exact hnil
    · exact hsame _ (by simp [Plain, Tame])
  | apply source text hash =>
    simp only [exec]
    split
    · rw [hc.load]
      exact ⟨rfl, ⟨text, hc, rfl⟩, hcache, plain_afterLoad hc source hash⟩
    · exact hnil
  | copyCache text =>
    cases ok with
    | false => exact hnil
    | true =>
      refine ⟨rfl, hchain, ?_, by simp [exec]⟩
      intro text' htext
      cases htext
      exact hc
  | writeCacheHash | writeApplied =>
    cases ok with
    | false => exact hnil
    | true => exact ⟨rfl, hchain, hcache, by simp [exec]⟩
  | heal =>
    simp only [exec]
    split
    · exact hnil
    · exact hnil
    · split
      · exact hnil
      · next text _ htext => exact hsame _ (by simpa [Plain, Tame] using hcache text htext)
      · exact hsame _ (by simp [Plain, Tame])
      · next text _ htext =>
        split
        · exact hsame _ (by simp [Plain, Tame])
        · exact hsame _ (by simpa [Plain, Tame] using hcache text htext)
  | handle payload =>
    cases payload with
    | noFilter => exact hc.elim
    | absent | unreadable | mismatch => exact hnil
    | rules text hash =>
      have hb : Built text := hc
      simp only [exec]
      split
      · exact hnil
      · exact hsame _ (by simpa [Plain, Tame] using hb)
  | boot =>
    simp only [exec]
    split
    · next text hash _ htext _ =>
      split
      · exact hnil
      · exact hsame _ (by simpa [Plain, Tame] using hcache text htext)
    · exact hnil

theorem others_entries {m : List (String × Bool)} (hf : h.forward = jump :: Numbered.entries m)
    (hjumps : ∀ x ∈ m, x.2 = true → x.1 = jump) :
    others h = (Numbered.kept m).filter (· ≠ jump) := by
  rw [filter_others hf, Numbered.filter_kept]
  intro x hx hmark
  simp [hjumps x hx hmark]

/-- The state between two turns, or after a command other than the search for copies, has no
deletion ahead. -/
theorem no_pending {forward : List String} {todo : List Cmd} (hhead : forward.head? = some jump)
    (hno : ∀ n, Cmd.deleteForward n ∉ todo) : ∃ m cs, Pending forward todo m cs := by
  obtain ⟨rest, rfl⟩ := List.head?_eq_some_iff.mp hhead
  have hunmarked : ∀ x ∈ rest.map fun rule => (rule, false), x.2 = false := by simp
  refine ⟨rest.map fun rule => (rule, false), todo, ?_, hno, ?_, ?_⟩
  · rw [Numbered.numbers_eq_nil hunmarked]
    rfl
  · rw [Numbered.entries, List.map_map]
    exact congrArg _ (List.map_id rest).symm
  · intro x hx hmark
    rw [hunmarked x hx] at hmark
    cases hmark

theorem Pending.head {forward : List String} {todo cs : List Cmd} {m : List (String × Bool)}
    (h : Pending forward todo m cs) :
    forward.head? = some jump := by
  rw [h.forward]
  rfl

theorem Kept.exec {rules : List String} {ok : Bool} {c : Cmd} {cs : List Cmd}
    (hk : Kept rules ⟨h, c :: cs⟩) :
    Kept rules ⟨(exec ok h c).1, (exec ok h c).2 ++ cs⟩ := by
  obtain ⟨hchain, hcache, htame, ⟨m, ds, hpending⟩, hothers⟩ := hk
  have hrest : ∀ c' ∈ cs, Tame c' := fun c' hc' => htame c' (List.mem_cons_of_mem _ hc')
  cases hnumbers : Numbered.numbers 2 m with
  | cons n ns =>
    -- the next command takes the last copy
    have htodo := hpending.todo
    rw [hnumbers, List.map_cons, List.cons_append] at htodo
    obtain ⟨rfl, rfl⟩ := List.cons.inj htodo
    have hkeep := others_entries hpending.forward hpending.jumps
    cases ok with
    | false =>
      obtain ⟨m', hentries, hns, hsub⟩ := Numbered.skip_head hnumbers
      refine ⟨hchain, hcache, hrest, ⟨m', ds, ?_⟩, hothers⟩
      refine ⟨by rw [hns]; rfl, hpending.rest, ?_,
        fun x hx hmark => hpending.jumps x (hsub x hx hmark) hmark⟩
      rw [hentries]
      exact hpending.forward
    | true =>
      obtain ⟨m', hdel, hns, hkept, hsub⟩ := Numbered.delete_head (by omega) hnumbers [jump] rfl
      have hforward : Numbered.delete h.forward n = jump :: Numbered.entries m' := by
        rw [hpending.forward]
        exact hdel
      have hjumps : ∀ x ∈ m', x.2 = true → x.1 = jump :=
        fun x hx => hpending.jumps x (hsub.subset hx)
      refine ⟨hchain, hcache, hrest, ⟨m', ds, by rw [hns]; rfl, hpending.rest, hforward, hjumps⟩,
        ?_⟩
      have hafter :=
        others_entries (h := { h with forward := Numbered.delete h.forward n }) hforward hjumps
      rw [← hothers]
      exact hafter.trans (by rw [hkept, ← hkeep])
  | nil =>
    have htodo := hpending.todo
    rw [hnumbers, List.map_nil, List.nil_append] at htodo
    subst htodo
    have hplain : ∀ c' ∈ c :: cs, Plain c' := by
      intro c' hc'
      refine ⟨htame c' hc', ?_⟩
      rintro n rfl
      exact hpending.rest n hc'
    have hlater : ∀ n, Cmd.deleteForward n ∉ cs :=
      fun n hn => hpending.rest n (List.mem_cons_of_mem _ hn)
    by_cases hcopies : c = .removeCopies
    · subst hcopies
      obtain ⟨rest, hforward⟩ := List.head?_eq_some_iff.mp hpending.head
      have hnumbers : copyNumbers h.forward = Numbered.numbers 2 (marks rest) := by
        rw [hforward, copyNumbers_cons]
      refine ⟨hchain, hcache, ?_, ⟨marks rest, cs, ?_, hlater, ?_, ?_⟩, hothers⟩
      · intro c' hc'
        rcases List.mem_append.mp hc' with hc' | hc'
        · obtain ⟨n, -, rfl⟩ := List.mem_map.mp hc'
          trivial
        · exact hrest c' hc'
      · rw [← hnumbers]
        rfl
      · rw [entries_marks]
        exact hforward
      · intro x hx hmark
        obtain ⟨rule, -, rfl⟩ := List.mem_map.mp hx
        simpa using hmark
    · have htamed := @exec_plain h ok c (hplain c List.mem_cons_self) hcopies hpending.head hcache
        hchain
      have hhead : (IngressGuard.exec ok h c).1.forward.head? = some jump := by
        rw [htamed.forward]
        exact hpending.head
      have hno : ∀ n, Cmd.deleteForward n ∉ (IngressGuard.exec ok h c).2 ++ cs := by
        intro n hn
        rcases List.mem_append.mp hn with hn | hn
        · exact (htamed.plain _ hn).2 n rfl
        · exact hlater n hn
      refine ⟨htamed.chain, htamed.cache, ?_, no_pending hhead hno, ?_⟩
      · intro c' hc'
        rcases List.mem_append.mp hc' with hc' | hc'
        · exact (htamed.plain c' hc').1
        · exact hrest c' hc'
      · have hsame : IngressGuard.others (IngressGuard.exec ok h c).1 = IngressGuard.others h := by
          rw [IngressGuard.others, htamed.forward]
          rfl
        exact hsame.trans hothers

theorem kept_step {rules : List String} (s : State) (a : Act) (t : State) (hs : Steps s a t)
    (hr : Restricted s a)
    (hk : Kept rules s) : Kept rules t := by
  obtain ⟨h, todo⟩ := s
  obtain ⟨m, ds, hpending⟩ := hk.pending
  -- a new list of commands without a deletion
  have hnew : ∀ new : List Cmd, (∀ c ∈ new, Plain c) → Kept rules ⟨h, new⟩ := fun new hplain =>
    ⟨hk.chain, hk.cache, fun c hc => (hplain c hc).1,
      no_pending hpending.head fun n hn => (hplain _ hn).2 n rfl, hk.others⟩
  cases a with
  | exec ok =>
    cases todo with
    | nil => cases hs
    | cons c cs =>
      cases hs
      exact hk.exec
  | tick =>
    simp only [Steps, step] at hs
    split at hs
    · cases hs
      exact hnew [.heal] (by simp [Plain, Tame])
    · cases hs
  | answer payload =>
    simp only [Steps, step] at hs
    split at hs
    · cases hs
      refine hnew [.handle payload] ?_
      cases payload with
      | noFilter => exact hr.elim
      | absent | unreadable | mismatch => simp [Plain, Tame, Payload.Built]
      | rules text hash =>
        have hb : Built text := hr
        simpa [Plain, Tame, Payload.Built] using hb
    · cases hs
  | restart =>
    cases hs
    exact hnew [.boot, .heal] (by simp [Plain, Tame])
  | reboot | outside => exact hr.elim

/-- While the hub keeps a filter and nobody else changes the rules, every forwarded packet goes
through rules the hub built, at every moment: while they are exchanged, where a command fails and
where the agent is stopped. No rule of others is removed. -/
theorem filter_stays {xs : List Act} (hon : On s.host) (hidle : s.todo = [])
    (hcache : ∀ text, s.host.cache = some text → Built text)
    (hrun : Run (Guarded Steps Restricted) s xs t) :
    On t.host ∧ others t.host = others s.host := by
  have hstart : Kept (others s.host) s := by
    refine ⟨hon.2, hcache, ?_, no_pending hon.1 ?_, rfl⟩
    · simp [hidle]
    · simp [hidle]
  have hkept := hrun.guarded_invariant kept_step hstart
  obtain ⟨m, ds, hpending⟩ := hkept.pending
  exact ⟨⟨hpending.head, hkept.chain⟩, hkept.others⟩

def olderText : String := (restoreOf sampleInput []).text

theorem olderText_built : Built olderText := by
  have hbuild : Buildable sampleInput [] := by
    refine ⟨?_, by decide, by decide, by decide, ?_, by decide⟩
    · rintro ⟨hopen, -⟩
      cases hopen
    · intro r hr
      cases hr
  exact ⟨sampleInput, [], restoreOf sampleInput [], buildIngressRestore_of_buildable hbuild, rfl⟩

def guardedHost : Host :=
  ⟨[jump, dockerRule, jump], some (ruleLines olderText), some (.hash "77aa"), some olderText,
    some "77aa"⟩

/-- New rules are loaded, and the agent is stopped before it has written them to the cache. -/
theorem filter_stays_sample : On { guardedHost with chain := some (ruleLines sampleText) } ∧
    others { guardedHost with chain := some (ruleLines sampleText) } = [dockerRule] := by
  have hanswer : Guarded Steps Restricted ⟨guardedHost, []⟩ (.answer (.rules sampleText "5f3c"))
      ⟨guardedHost, [.handle (.rules sampleText "5f3c")]⟩ := ⟨rfl, sampleText_built⟩
  have hhandle : Guarded Steps Restricted ⟨guardedHost, [.handle (.rules sampleText "5f3c")]⟩
    (.exec true)
      ⟨guardedHost, [.apply .hub sampleText "5f3c"]⟩ :=
        ⟨by simp [Steps, step, exec, guardedHost], trivial⟩
  have hload : Guarded Steps Restricted ⟨guardedHost, [.apply .hub sampleText "5f3c"]⟩ (.exec true)
      ⟨{ guardedHost with chain := some (ruleLines sampleText) },
        afterLoad .hub sampleText "5f3c"⟩ :=
    ⟨step_apply sampleText_built .hub "5f3c" guardedHost, trivial⟩
  have hstop : Guarded Steps Restricted
      ⟨{ guardedHost with chain := some (ruleLines sampleText) }, afterLoad .hub sampleText "5f3c"⟩
        .restart
      ⟨{ guardedHost with chain := some (ruleLines sampleText) }, [.boot, .heal]⟩ := ⟨rfl, trivial⟩
  have hon : On guardedHost := ⟨rfl, olderText, olderText_built, rfl⟩
  have hcache : ∀ text, guardedHost.cache = some text → Built text := by
    intro text htext
    cases htext
    exact olderText_built
  have hother : dockerRule ≠ jump := by decide
  have hothers : others guardedHost = [dockerRule] := by simp [others, guardedHost, hother]
  have hrun := Run.cons hanswer (.cons hhandle (.cons hload (.single hstop)))
  rw [← hothers]
  exact filter_stays hon rfl hcache hrun

/-! A filter that is lost. -/

/-- The hub goes on wanting the rules with this hash. -/
def Wants (hash : String) : Payload → Prop
  | .rules _ wanted => wanted = hash
  | .noFilter => False
  | _ => True

def Steady (hash : String) (_ : State) : Act → Prop
  | .answer payload => Wants hash payload
  | .reboot _ => False
  | _ => True

/-- A command that does nothing where neither FG_IN nor the cache is there. -/
def Idle (hash : String) : Cmd → Prop
  | .heal | .boot => True
  | .handle payload => Wants hash payload
  | _ => False

/-- The agent still has the hash of the rules, but not the rules. -/
structure Lost (hash : String) (s : State) : Prop where
  chain : s.host.chain = none
  cache : s.host.cache = none
  applied : s.host.applied = some (.hash hash)
  idle : ∀ c ∈ s.todo, Idle hash c

theorem exec_idle {hash : String} {ok : Bool} {c : Cmd} (hc : Idle hash c) (hchain : h.chain = none)
    (hcache : h.cache = none)
    (happlied : h.applied = some (.hash hash)) : exec ok h c = (h, []) := by
  cases c with
  | heal => simp [exec, hchain, hcache, happlied]
  | boot => simp [exec, happlied]
  | handle payload =>
    cases payload with
    | rules text wanted =>
      have hwanted : wanted = hash := hc
      simp [exec, happlied, hwanted]
    | noFilter => exact hc.elim
    | absent | unreadable | mismatch => rfl
  | _ => exact hc.elim

theorem lost_step {hash : String} (s : State) (a : Act) (t : State) (hs : Steps s a t)
    (hsteady : Steady hash s a)
    (hl : Lost hash s) : Lost hash t := by
  obtain ⟨hchain, hcache, happlied, hidle⟩ := hl
  obtain ⟨h, todo⟩ := s
  cases a with
  | exec ok =>
    cases todo with
    | nil => cases hs
    | cons c cs =>
      have hnone := @exec_idle h hash ok c (hidle c List.mem_cons_self) hchain hcache happlied
      simp only [Steps, step, hnone, List.nil_append] at hs
      cases hs
      exact ⟨hchain, hcache, happlied, fun c' hc' => hidle c' (List.mem_cons_of_mem _ hc')⟩
  | tick =>
    simp only [Steps, step] at hs
    split at hs
    · cases hs
      exact ⟨hchain, hcache, happlied, by simp [Idle]⟩
    · cases hs
  | answer payload =>
    simp only [Steps, step] at hs
    split at hs
    · cases hs
      have hwants : Wants hash payload := hsteady
      exact ⟨hchain, hcache, happlied, by simpa [Idle] using hwants⟩
    · cases hs
  | restart =>
    cases hs
    exact ⟨hchain, hcache, happlied, by simp [Idle]⟩
  | reboot => exact hsteady.elim
  | outside forward loss =>
    cases hs
    have hnone : loss.of h.chain = none := by
      rw [hchain]
      cases loss <;> rfl
    exact ⟨hnone, hcache, happlied, hidle⟩

/-- Without FG_IN and the cache, but with the hash, the filter does not come back as long as the hub
sends that hash: neither a turn of the loop nor a restart brings it back, and the hash is what the
agent reports. -/
theorem lost_filter_stays_lost {hash : String} {xs : List Act} (hl : Lost hash s)
    (hrun : Run (Guarded Steps (Steady hash)) s xs t) :
    t.host.chain = none ∧ t.host.applied = some (.hash hash) := by
  have hend := hrun.guarded_invariant lost_step hl
  exact ⟨hend.chain, hend.applied⟩

def lostHost : Host := ⟨[dockerRule], none, some (.hash "5f3c"), none, some "5f3c"⟩

/-- The hub takes the filter back, and the agent is stopped before it has written NONE. -/
theorem stopped_removal :
    Run Steps ⟨filteredHost, []⟩ (.answer .noFilter :: List.replicate 7 (.exec true) ++ [.restart])
    ⟨lostHost, [.boot, .heal]⟩ := by
  have hanswer : Steps ⟨filteredHost, []⟩ (.answer .noFilter) ⟨filteredHost, [.handle .noFilter]⟩ :=
    rfl
  have hhandle : Steps ⟨filteredHost, [.handle .noFilter]⟩ (.exec true)
      ⟨filteredHost, [.remove, .writeApplied .nothing]⟩ := by
    simp [Steps, step, exec, filteredHost]
  have hremove : Steps ⟨filteredHost, [.remove, .writeApplied .nothing]⟩ (.exec true)
      ⟨filteredHost,
        [.detach, .flush, .dropChain, .dropCache, .dropCacheHash, .writeApplied .nothing]⟩ := rfl
  have hdetach : Steps
      ⟨filteredHost,
        [.detach, .flush, .dropChain, .dropCache, .dropCacheHash, .writeApplied .nothing]⟩
          (.exec true)
      ⟨{ filteredHost with forward := [dockerRule] },
        [.detach, .flush, .dropChain, .dropCache, .dropCacheHash, .writeApplied .nothing]⟩ := by
    simp [Steps, step, exec, filteredHost]
  have hdetached : Steps ⟨{ filteredHost with forward := [dockerRule] },
        [.detach, .flush, .dropChain, .dropCache, .dropCacheHash, .writeApplied .nothing]⟩
          (.exec true)
      ⟨{ filteredHost with forward := [dockerRule] },
        [.flush, .dropChain, .dropCache, .dropCacheHash, .writeApplied .nothing]⟩ := by
    have hother : jump ≠ dockerRule := by decide
    simp [Steps, step, exec, filteredHost, hother]
  have hflush : Steps ⟨{ filteredHost with forward := [dockerRule] },
        [.flush, .dropChain, .dropCache, .dropCacheHash, .writeApplied .nothing]⟩ (.exec true)
      ⟨{ filteredHost with forward := [dockerRule], chain := some [] },
        [.dropChain, .dropCache, .dropCacheHash, .writeApplied .nothing]⟩ := rfl
  have hdropChain : Steps ⟨{ filteredHost with forward := [dockerRule], chain := some [] },
        [.dropChain, .dropCache, .dropCacheHash, .writeApplied .nothing]⟩ (.exec true)
      ⟨{ filteredHost with forward := [dockerRule], chain := none },
        [.dropCache, .dropCacheHash, .writeApplied .nothing]⟩ := by
    have hother : jump ≠ dockerRule := by decide
    simp [Steps, step, exec, filteredHost, hother]
  have hdropCache : Steps ⟨{ filteredHost with forward := [dockerRule], chain := none },
        [.dropCache, .dropCacheHash, .writeApplied .nothing]⟩ (.exec true)
      ⟨lostHost, [.dropCacheHash, .writeApplied .nothing]⟩ := rfl
  exact .cons hanswer (.cons hhandle (.cons hremove (.cons hdetach (.cons hdetached (.cons hflush
    (.cons hdropChain (.cons hdropCache (.single rfl))))))))

theorem sample_lost : ∃ xs, Run Steps ⟨sampleHost, []⟩ xs ⟨lostHost, [.boot, .heal]⟩ := by
  obtain ⟨xs, hrun⟩ := sample_filtered
  exact ⟨_, hrun.of_guarded.append stopped_removal⟩

/-- The agent is started again, and the hub wants the same rules again. -/
theorem lost_filter_stays_lost_sample :
    ∃ xs ys t, Run Steps ⟨sampleHost, []⟩ xs ⟨lostHost, [.boot, .heal]⟩ ∧
    Run Steps ⟨lostHost, [.boot, .heal]⟩ ys t ∧ .answer (.rules sampleText "5f3c") ∈ ys ∧
    t.todo = [] ∧
    t.host.chain = none ∧ t.host.applied = some (.hash "5f3c") := by
  have hboot : Guarded Steps (Steady "5f3c") ⟨lostHost, [.boot, .heal]⟩ (.exec true)
      ⟨lostHost, [.heal]⟩ := ⟨rfl, trivial⟩
  have hheal : Guarded Steps (Steady "5f3c") ⟨lostHost, [.heal]⟩ (.exec true) ⟨lostHost, []⟩ :=
    ⟨rfl, trivial⟩
  have hanswer : Guarded Steps (Steady "5f3c") ⟨lostHost, []⟩ (.answer (.rules sampleText "5f3c"))
      ⟨lostHost, [.handle (.rules sampleText "5f3c")]⟩ := ⟨rfl, rfl⟩
  have hhandle : Guarded Steps (Steady "5f3c") ⟨lostHost, [.handle (.rules sampleText "5f3c")]⟩
    (.exec true)
      ⟨lostHost, []⟩ := ⟨by simp [Steps, step, exec, lostHost], trivial⟩
  have hrun := Run.cons hboot (.cons hheal (.cons hanswer (.single hhandle)))
  have hlost : Lost "5f3c" ⟨lostHost, [.boot, .heal]⟩ := ⟨rfl, rfl, rfl, by simp [Idle]⟩
  obtain ⟨xs, hreached⟩ := sample_lost
  exact ⟨xs, _, _, hreached, hrun.of_guarded, by simp, rfl, lost_filter_stays_lost hlost hrun⟩

end FloppyGuard.IngressGuard
