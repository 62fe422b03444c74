import FloppyGuard.Lib.Checked
import FloppyGuard.Lib.Statements
import FloppyGuard.Lib.Text

/-! The gate on `advanced_config` (`nginx.js`) and the reader of nginx it stands for. -/
namespace FloppyGuard.Nginx

open Text Statements

/-- `tokenizeNginxStatements`: any white space, `;`, `{` and `}` end an unquoted word, and a
backslash is dropped. -/
def gate : Dialect where
  space := isSpace
  ends _ c := isSpace c || c == ';' || c == '{' || c == '}'
  unescape c := [c]

def nginxSpace (c : Char) : Bool := c == ' ' || c == '\t' || c == '\r' || c == '\n'

/-- `ngx_conf_read_token`: `}` does not end an unquoted word, nor does `{` after `$`. -/
def nginx : Dialect where
  space := nginxSpace
  ends afterDollar c := nginxSpace c || c == ';' || (c == '{' && !afterDollar)
  unescape c :=
    if c = '"' ∨ c = '\'' ∨ c = '\\' then [c]
    else if c = 't' then ['\t']
    else if c = 'r' then ['\r']
    else if c = 'n' then ['\n']
    else ['\\', c]

def tokenizeNginxStatements (cfg : List Char) : List Statement := read gate cfg

/-! Directive names. -/

def forbiddenAdvancedConfigDirectives : List (List Char) :=
  ["include", "alias", "root", "load_module", "ssl_certificate", "ssl_certificate_key",
    "ssl_password_file", "perl",
    "perl_set", "perl_modules", "perl_require"].map String.toList

/-- `\w` -/
def isWord (c : Char) : Bool := c.isAlphanum || c == '_'

/-- Some end of the name is `mark` and then word characters, at least `least` of them. -/
def endsWithWord (mark : String) (least : ℕ) (name : List Char) : Bool :=
  name.tails.any fun t => mark.toList.isPrefixOf t && (t.drop mark.toList.length).all isWord &&
    decide (least ≤ (t.drop mark.toList.length).length)

/-- `FORBIDDEN_ADVANCED_CONFIG_DIRECTIVE_PATTERN` on a lower-case name. -/
def matchesCodePattern (name : List Char) : Bool :=
  endsWithWord "_by_lua" 0 name || endsWithWord "lua_" 1 name || endsWithWord "perl" 0 name ||
    endsWithWord "_by_perl" 0 name ||
    ("js_".toList.isPrefixOf name && (name.drop 3).all isWord && decide (1 ≤ (name.drop 3).length))

/-- `FORBIDDEN_FILE_DIRECTIVE_PATTERN` on a lower-case name. -/
def matchesFilePattern (name : List Char) : Bool :=
  ["_certificate", "_certificate_key", "_certificate_cache", "_password_file", "_crl", "_dhparam",
    "_temp_path",
    "_user_file", "_store", "_ticket_key", "_stapling_file"].any fun ending =>
      ending.toList.isSuffixOf name

/-- `toLowerCase`. Beyond ASCII only the two letters that become ASCII ones matter to the name
tests. -/
def lowerChar (c : Char) : List Char :=
  if c.toNat = 0x212a then ['k'] else if c.toNat = 0x130 then ['i', Char.ofNat 0x307]
    else [c.toLower]

def toLowerCase (name : List Char) : List Char := name.flatMap lowerChar

/-- A directive name that must not appear, in any case. -/
def forbidden (name : List Char) : Bool :=
  let directive := toLowerCase name
  forbiddenAdvancedConfigDirectives.contains directive || matchesCodePattern directive ||
    matchesFilePattern directive

/-- `error_log`, or an `access_log` that does more than switch the log off. -/
def opensLog (name : List Char) (args : List (List Char)) : Bool :=
  let directive := toLowerCase name
  directive == "error_log".toList || (directive == "access_log".toList && args != ["off".toList])

/-- `/["'\\]/` -/
def isQuotedOrEscaped (raw : List Char) : Bool :=
  raw.any fun c => c == '"' || c == '\'' || c == '\\'

def assertSafeStatement (s : Statement) : Except String Unit :=
  let directive := toLowerCase s.name.word
  if isQuotedOrEscaped s.name.raw then
    .error ("advanced_config contains a quoted or escaped nginx directive name: " ++
      String.ofList (slice 64 directive))
  else if directive = [] then .ok ()
  else if forbidden s.name.word || opensLog s.name.word (s.args.map Token.word) then
    .error ("advanced_config contains a forbidden nginx directive: " ++ String.ofList directive)
  else .ok ()

def assertSafeAdvancedConfig (cfg : List Char) : Except String Unit :=
  if cfg = [] then .ok () else (tokenizeNginxStatements cfg).forM assertSafeStatement

/-- What nginx must not be made to run. -/
def Harmless (s : Statement) : Prop :=
  forbidden s.name.word = false ∧ opensLog s.name.word (s.args.map Token.word) = false

instance {s : Statement} : Decidable (Harmless s) := inferInstanceAs (Decidable (_ ∧ _))

/-- Nothing that the gate accepts makes nginx run a forbidden directive. -/
def ReadsWhatNginxReads (cfg : List Char) : Prop :=
  assertSafeAdvancedConfig cfg = .ok () → ∀ s ∈ read nginx cfg, Harmless s

instance {cfg : List Char} : Decidable (ReadsWhatNginxReads cfg) :=
  inferInstanceAs (Decidable (_ → _))

/-! Texts that both readers split alike. -/

variable {cfg : List Char} {s s' : Statement} {t t' : Token} {c : Char}

theorem accepted_iff : assertSafeAdvancedConfig cfg = .ok () ↔
    ∀ s ∈ tokenizeNginxStatements cfg, assertSafeStatement s = .ok () := by
  have hall : ∀ list : List Statement, list.forM assertSafeStatement = .ok () ↔
      ∀ s ∈ list, assertSafeStatement s = .ok () := by
    intro list
    induction list with
    | nil => exact ⟨nofun, fun _ => rfl⟩
    | cons s list ih =>
      rw [List.forall_mem_cons, ← ih]
      exact Checked.unit_bind_eq_ok
  unfold assertSafeAdvancedConfig
  split
  · next hempty =>
    subst hempty
    exact ⟨fun _ => nofun, fun _ => rfl⟩
  · exact hall _

theorem harmless_of_accepted (h : assertSafeStatement s = .ok ()) :
    isQuotedOrEscaped s.name.raw = false ∧ Harmless s := by
  unfold assertSafeStatement at h
  dsimp only at h
  split at h
  · cases h
  · next hquoted =>
    refine ⟨by simpa using hquoted, ?_⟩
    split at h
    · next hempty =>
      have hnothing : forbidden s.name.word = false := by
        unfold forbidden
        rw [hempty]
        decide
      exact ⟨hnothing, by simp [opensLog, hempty]⟩
    split at h
    · cases h
    · next hsafe => simpa [Harmless] using hsafe

/-- What nginx takes a backslash away from. -/
def Unescaped (c : Char) : Prop := c = '"' ∨ c = '\'' ∨ c = '\\' ∨ c = 't' ∨ c = 'r' ∨ c = 'n'

/-- nginx keeps the backslash, or the gate has a character that nginx takes it away from. -/
def Backslashed (t t' : Token) : Prop :=
  (∃ c ∈ t.word, Unescaped c) ∨ ('\\' ∈ t.raw → '\\' ∈ t'.word)

theorem unescape_nginx : Unescaped c ∨ nginx.unescape c = ['\\', c] := by
  unfold Unescaped
  by_cases h : c = '"' ∨ c = '\'' ∨ c = '\\' ∨ c = 't' ∨ c = 'r' ∨ c = 'n'
  · exact .inl h
  · simp only [not_or] at h
    exact .inr (by simp [nginx, h])

theorem keeps_backslashed : Keeps gate nginx Backslashed fun _ _ => True where
  quote c hc := .inr fun hm => absurd (List.mem_singleton.mp hm).symm hc
  first c := .inr id
  marked := trivial
  add c h := by
    rcases h with ⟨x, hx, hu⟩ | h
    · exact .inl ⟨x, List.mem_append_left _ hx, hu⟩
    · refine .inr fun hm => ?_
      rcases List.mem_append.mp hm with hm | hm
      · exact List.mem_append_left _ (h hm)
      · exact List.mem_append_right _ hm
  close c hc h := by
    refine h.imp_right fun h hm => h ?_
    rcases List.mem_append.mp hm with hm | hm
    · exact hm
    · exact absurd (List.mem_singleton.mp hm).symm hc
  mark _ := trivial
  escape c _ := by
    rcases unescape_nginx with hu | hc
    · exact .inl ⟨c, by simp [gate], hu⟩
    · exact .inr fun _ => by simp [hc]
  cut _ := .inl ⟨'\\', by simp, .inr (.inr (.inl rfl))⟩

/-- No argument of an `access_log` is written with a backslash. -/
def PlainLogArgs (cfg : List Char) : Prop :=
  ∀ s ∈ read nginx cfg, toLowerCase s.name.word = "access_log".toList → ∀ t ∈ s.args, '\\' ∉ t.raw

theorem opensLog_eq_false {name : List Char} {args : List (List Char)} :
    opensLog name args = false ↔
    toLowerCase name ≠ "error_log".toList ∧
    (toLowerCase name = "access_log".toList → args = ["off".toList]) := by
  simp only [opensLog, Bool.or_eq_false_iff, beq_eq_false_iff_ne, Bool.and_eq_false_iff,
    bne_eq_false_iff_eq]
  exact and_congr_right fun _ => or_iff_not_imp_left.trans (imp_congr_left not_not)

/-- What the two readers make of one word. -/
def Alongside (t t' : Token) : Prop := SameText t t' ∧ Backslashed t t'

theorem read_alongside (ha : Alike gate nginx Reader.init cfg) :
    List.Forall₂ (StatementRel Alongside) (tokenizeNginxStatements cfg) (read nginx cfg) :=
  read_rel ((keeps_sameText gate nginx).and keeps_backslashed) ha

theorem name_eq (h : StatementRel Alongside s s') (hs : isQuotedOrEscaped s.name.raw = false) :
    s.name.word = s'.name.word := by
  refine h.name.1.word fun hm => ?_
  have hquoted : isQuotedOrEscaped s.name.raw = true := List.any_eq_true.mpr ⟨'\\', hm, by decide⟩
  simp [hs] at hquoted

theorem harmless_of_plain (h : StatementRel Alongside s s') (hs : assertSafeStatement s = .ok ())
    (hplain : toLowerCase s'.name.word = "access_log".toList → ∀ t ∈ s'.args, '\\' ∉ t.raw) :
    Harmless s' := by
  obtain ⟨hquoted, hforbidden, hlog⟩ := harmless_of_accepted hs
  rw [name_eq h hquoted] at hforbidden hlog
  obtain ⟨herror, haccess⟩ := opensLog_eq_false.mp hlog
  refine ⟨hforbidden, opensLog_eq_false.mpr ⟨herror, fun hname => ?_⟩⟩
  rw [← map_word_eq (h.args.imp fun _ _ ht => ht.1) (hplain hname), haccess hname]

/-- An argument that both readers take for `off` has no backslash. -/
theorem plain_of_harmless (h : StatementRel Alongside s s') (hs : assertSafeStatement s = .ok ())
    (hs' : Harmless s') (hname : toLowerCase s'.name.word = "access_log".toList) :
    ∀ t ∈ s'.args, '\\' ∉ t.raw := by
  obtain ⟨hquoted, -, hlog⟩ := harmless_of_accepted hs
  rw [name_eq h hquoted] at hlog
  have hoff : s.args.map Token.word = ["off".toList] := (opensLog_eq_false.mp hlog).2 hname
  have hoff' : s'.args.map Token.word = ["off".toList] := (opensLog_eq_false.mp hs'.2).2 hname
  intro t' ht' hm
  obtain ⟨t, ht, hsame, hback⟩ := exists_related h.args t' ht'
  have hword : t.word = "off".toList := by
    simpa [hoff] using List.mem_map_of_mem (f := Token.word) ht
  have hword' : t'.word = "off".toList := by
    simpa [hoff'] using List.mem_map_of_mem (f := Token.word) ht'
  rcases hback with ⟨c, hc, hu⟩ | hback
  · have hletter : c = 'o' ∨ c = 'f' := by simpa [hword] using hc
    rcases hletter with rfl | rfl
    · exact absurd hu (by unfold Unescaped; decide)
    · exact absurd hu (by unfold Unescaped; decide)
  · have hin : '\\' ∈ t'.word := hback (hsame.raw ▸ hm)
    rw [hword'] at hin
    revert hin
    decide

/-- On a text that both readers split alike, the gate is right exactly when no `access_log` that it
accepts has an argument with a backslash. -/
theorem readsWhatNginxReads_iff (ha : Alike gate nginx Reader.init cfg) :
    ReadsWhatNginxReads cfg ↔ (assertSafeAdvancedConfig cfg = .ok () → PlainLogArgs cfg) := by
  refine forall_congr' fun hok => ⟨fun hall s' hs' => ?_, fun hplain s' hs' => ?_⟩
  all_goals
    obtain ⟨s, hs, h⟩ := exists_related (read_alongside ha) s' hs'
    have hsafe := accepted_iff.mp hok s hs
  · exact plain_of_harmless h hsafe (hall s' hs')
  · exact harmless_of_plain h hsafe (hplain s' hs')

/-! Texts that they do not split alike. -/

theorem isSpace_of_nginxSpace (h : nginxSpace c = true) : isSpace c = true := by
  simp only [nginxSpace, Bool.or_eq_true, beq_iff_eq] at h
  rcases h with ((rfl | rfl) | rfl) | rfl <;> decide

theorem gate_ends_of_nginx {v : Bool} (h : nginx.ends v c = true) : gate.ends v c = true := by
  simp only [nginx, gate, Bool.or_eq_true, Bool.and_eq_true] at *
  rcases h with (h | h) | h
  · exact .inl (.inl (.inl (isSpace_of_nginxSpace h)))
  · exact .inl (.inl (.inr h))
  · exact .inl (.inr h.1)

/-- A comment for the gate, the end of a word and one more directive for nginx. -/
def smuggled : List Char := "#;alias x;".toList

theorem start_gate_between {r : Reader} {v : Bool} (h : gate.ends v c = true) :
    (r.start gate c).phase = .between := by
  simp only [gate, Bool.or_eq_true, beq_iff_eq] at h
  unfold Reader.start
  by_cases hspace : gate.space c = true
  · rw [if_pos hspace]
  · have hend : c = ';' ∨ c = '{' ∨ c = '}' := by
      rcases h with ((h | h) | h) | h
      · exact absurd h hspace
      · exact .inl h
      · exact .inr (.inl h)
      · exact .inr (.inr h)
    have hhash : c ≠ '#' := by rcases hend with rfl | rfl | rfl <;> decide
    rw [if_neg hspace, if_neg hhash, if_pos hend]
    rfl

/-- White space to the gate only is a character of a word to nginx. -/
theorem start_nginx_bare {r : Reader} (hs : isSpace c = true) (hn : nginxSpace c = false) :
    (r.start nginx c).phase = .bare (c = '$') false ⟨[c], [c]⟩ := by
  have hne : ∀ d, isSpace d = false → c ≠ d := by
    rintro d hd rfl
    simp [hs] at hd
  have hspace : ¬ nginx.space c = true := by simp [nginx, hn]
  have hend : ¬ (c = ';' ∨ c = '{' ∨ c = '}') :=
    not_or.mpr ⟨hne _ (by decide), not_or.mpr ⟨hne _ (by decide), hne _ (by decide)⟩⟩
  have hquote : ¬ (c = '"' ∨ c = '\'') := not_or.mpr ⟨hne _ (by decide), hne _ (by decide)⟩
  unfold Reader.start
  rw [if_neg hspace, if_neg (hne '#' (by decide)), if_neg hend, if_neg hquote,
    if_neg (hne '\\' (by decide))]

theorem space_of_ne (h : gate.space c ≠ nginx.space c) :
    isSpace c = true ∧ nginxSpace c = false := by
  cases hn : nginxSpace c with
  | true => exact absurd ((isSpace_of_nginxSpace hn).trans hn.symm) h
  | false => exact ⟨by simpa [gate, nginx, hn] using h, rfl⟩

theorem ends_of_diverges {v : Bool} {t : Token} (h : Diverges gate nginx (.bare v false t) c) :
    gate.ends v c = true ∧ nginx.ends v c = false := by
  cases hn : nginx.ends v c with
  | false =>
    refine ⟨?_, rfl⟩
    rcases h with h | h
    · simpa [hn] using h
    · exact h.1
  | true =>
    have hg := gate_ends_of_nginx hn
    rcases h with h | ⟨-, h⟩
    · exact absurd (hg.trans hn.symm) h
    · obtain ⟨hs, hns⟩ := space_of_ne h
      simp only [nginx, hns, Bool.false_or, Bool.or_eq_true, beq_iff_eq, Bool.and_eq_true] at hn
      rcases hn with rfl | ⟨rfl, -⟩ <;> exact absurd hs (by decide)

/-- Where the readers part, the gate is between two words and nginx in an unquoted one. -/
theorem step_diverging {r r' : Reader}
    (h : ReaderRel Alongside (fun t t' => (t.raw = t'.raw ∧ '\\' ∈ t.raw) ∧ True) r r')
    (hd : Diverges gate nginx r'.phase c) :
    (r.step gate c).phase = .between ∧ ∃ v t, (r'.step nginx c).phase = .bare v false t := by
  have hphase := h.phase
  obtain ⟨statements, words, phase⟩ := r
  obtain ⟨statements', words', phase'⟩ := r'
  dsimp only at hphase hd
  cases hphase with
  | comment | quoted | quotedEscape | bareEscape => exact absurd hd id
  | between =>
    obtain ⟨hs, hn⟩ := space_of_ne hd
    have hg : gate.space c = true := hs
    refine ⟨?_, _, _, start_nginx_bare hs hn⟩
    simp [Reader.step, Reader.start, hg]
  | @bare v t t' ht =>
    obtain ⟨hg, hn⟩ := ends_of_diverges hd
    have hne : c ≠ '\\' := by
      rintro rfl
      simp [gate, isSpace] at hg
    refine ⟨?_, decide (c = '$'), ⟨t'.word ++ [c], t'.raw ++ [c]⟩, ?_⟩
    · simp only [Reader.step, hg, if_true]
      exact start_gate_between hg
    · simp [Reader.step, hn, hne]

/-- The gate sees nothing of what follows. -/
theorem read_gate_smuggled {r : Reader} (h : r.phase = .between) :
    (smuggled.foldl (Reader.step gate) r).finish = r.finish := by
  obtain ⟨statements, words, phase⟩ := r
  cases h
  rfl

/-- nginx finds the directive. -/
theorem read_nginx_smuggled {r : Reader} {v : Bool} {t : Token} (h : r.phase = .bare v false t) :
    ∃ s ∈ (smuggled.foldl (Reader.step nginx) r).finish, ¬ Harmless s := by
  obtain ⟨statements, words, phase⟩ := r
  cases h
  let alias_ : Statement := ⟨⟨"alias".toList, "alias".toList⟩, [⟨['x'], ['x']⟩]⟩
  let before : Reader := ⟨statements, words ++ [⟨t.word ++ ['#'], t.raw ++ ['#']⟩], .between⟩
  have hfinish : (smuggled.foldl (Reader.step nginx) ⟨statements, words, .bare v false t⟩).finish =
      before.endStatement.statements ++ [alias_] := rfl
  refine ⟨alias_, by simp [hfinish], fun hsafe => ?_⟩
  have hforbidden : forbidden alias_.name.word = true := by decide
  exact absurd hforbidden (by simp [hsafe.1])

/-- A text up to a place where the readers part can be completed so that the gate sees nothing more
and nginx a forbidden directive. -/
theorem smuggle {p : List Char} (ha : Alike gate nginx Reader.init p)
    (hd : Diverges gate nginx (p.foldl (Reader.step nginx) Reader.init).phase c)
    (hok : assertSafeAdvancedConfig (p ++ [c]) = .ok ()) :
    ¬ ReadsWhatNginxReads (p ++ [c] ++ smuggled) := by
  have hrel := ReaderRel.init.foldl ((keeps_sameText gate nginx).and keeps_backslashed) ha
  obtain ⟨hgate, v, t, hnginx⟩ := step_diverging hrel hd
  have hsame : tokenizeNginxStatements (p ++ [c] ++ smuggled) = tokenizeNginxStatements
      (p ++ [c]) := by
    simp only [tokenizeNginxStatements, Statements.read, List.foldl_append]
    exact read_gate_smuggled hgate
  have haccepted : assertSafeAdvancedConfig (p ++ [c] ++ smuggled) = .ok () := by
    rw [accepted_iff, hsame]
    exact accepted_iff.mp hok
  intro hreads
  obtain ⟨s, hs, hharm⟩ := read_nginx_smuggled hnginx
  refine hharm (hreads haccepted s ?_)
  rw [Statements.read, List.foldl_append, List.foldl_append]
  exact hs

/-- The gate reads what nginx reads as long as both split the text alike, an escaped `access_log`
argument apart; where they first part, the text can be completed so that it does not. -/
theorem assertSafeAdvancedConfig_exact (cfg : List Char) :
    (Alike gate nginx Reader.init cfg →
      (ReadsWhatNginxReads cfg ↔ (assertSafeAdvancedConfig cfg = .ok () → PlainLogArgs cfg))) ∧
    (¬ Alike gate nginx Reader.init cfg → ∃ p c rest, cfg = p ++ c :: rest ∧
      Alike gate nginx Reader.init p ∧
      (assertSafeAdvancedConfig (p ++ [c]) = .ok () →
        ¬ ReadsWhatNginxReads (p ++ [c] ++ smuggled))) := by
  refine ⟨readsWhatNginxReads_iff, fun hnot => ?_⟩
  obtain ⟨p, c, rest, hcfg, hp, hd⟩ := exists_diverging hnot
  exact ⟨p, c, rest, hcfg, hp, smuggle hp hd⟩

/-- A `}` inside a word hides a directive in a comment, makes `off` another file name or, like a
form feed and a `{` after `$`, ends a word for the gate only; a backslash is dropped from `off`. -/
theorem assertSafeAdvancedConfig_smuggles :
    ¬ ReadsWhatNginxReads "set $x a\x7d#;alias /etc/;".toList ∧
    ¬ ReadsWhatNginxReads "access_log off\x7dx;".toList ∧
    ¬ ReadsWhatNginxReads "set $x \x0c#;alias /etc/;".toList ∧
    ¬ ReadsWhatNginxReads "set $x $\x7b#;alias /etc/;".toList ∧
    ¬ ReadsWhatNginxReads "access_log o\\ff;".toList := by
  decide +kernel

end FloppyGuard.Nginx
