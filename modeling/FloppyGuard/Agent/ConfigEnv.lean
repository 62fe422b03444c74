import FloppyGuard.Agent.StoredHook
import FloppyGuard.Lib.EnvFile
import FloppyGuard.Lib.Run
import Mathlib.Data.Option.Basic

/-! `config.env` of an agent. The install script writes it, the loop sources it as root when it
starts, and a new token or a new URL of the hub goes into it while the loop runs
(`getInstallScript`, `rotate_token`, `update_server_urls` in `agent.js`). A file is the list of its
lines; one write of it is one step. -/
namespace FloppyGuard.ConfigEnv

open Text EnvFile

abbrev Value := List Char

def fgtoken : List Char := "FGTOKEN".toList

def primaryUrl : List Char := "PRIMARY_URL".toList

def fallbackUrl : List Char := "FALLBACK_URL".toList

/-! What the hub hands out. -/

/-- `randomToken`: 32 bytes in hexadecimal digits -/
structure Token where
  text : Value
  length : text.length = 64
  hex : text.all ("0123456789abcdef".toList.contains ·) = true

def isUrlChar (c : Char) : Bool := c.isAlphanum || "._~%:@+=,/-".toList.contains c

/-- `HUB_HTTP_URL_REGEX` -/
def isHubUrl (url : Value) : Bool :=
  ["http://", "https://"].any fun scheme =>
    scheme.toList.isPrefixOf url && url.drop scheme.toList.length ≠ [] &&
      (url.drop scheme.toList.length).all isUrlChar

abbrev HubUrl := {url : Value // isHubUrl url = true}

/-- `/^https:\/\//i` -/
def isHttps (url : Value) : Bool := "https://".toList.isPrefixOf (url.map Char.toLower)

section

-- `new URL(..).protocol`, where it does not throw
variable (protocol : Value → Option String)

def sanitizeHubUrl (url : Value) : Option HubUrl :=
  let trimmed := ((trim url).reverse.dropWhile (· = '/')).reverse
  if trimmed = [] then none
  else if (protocol trimmed).any (["http:", "https:"].contains ·) then
    if h : isHubUrl trimmed = true then some ⟨trimmed, h⟩ else none
  else none

def sanitizeFallbackHubUrl (url : Value) : Option HubUrl :=
  (sanitizeHubUrl protocol url).filter (isHttps ·.val)

/-- The setting `agent-hub-url` and the two environment variables; `none`: no text. -/
structure HubSettings where
  value : Option Value
  metaPrimary : Option Value
  envPrimary : Option Value
  envFallback : Option Value

structure HubUrls where
  primary : Option HubUrl
  fallback : Option HubUrl

def getAgentHubUrls (row : HubSettings) : HubUrls where
  primary :=
    row.metaPrimary.bind (sanitizeHubUrl protocol) <|> row.envPrimary.bind (sanitizeHubUrl protocol)
  fallback := row.value.bind (sanitizeFallbackHubUrl protocol) <|> row.envFallback.bind
    (sanitizeFallbackHubUrl protocol)

def sanitizeAgentMode (mode : Option String) : Except String String :=
  let m := (mode.filter (· ≠ "")).getD "native"
  if ["native"].contains m then .ok m
  else .error ("mode must be one of: " ++ ", ".intercalate ["native"])

/-- What the row of the agent and the query say. -/
structure Request where
  id : ℕ
  regToken : Option Token
  mode : Option String
  wgInterface : Option String
  publicUrl : Value
  tunnelUrl : Value

/-- What goes into the `config.env` of the script. -/
structure Install where
  id : ℕ
  regToken : Token
  publicUrl : HubUrl
  tunnelUrl : HubUrl
  mode : String
  wgInterface : String

def required {α : Type} (message : String) : Option α → Except String α
  | none => .error message
  | some x => .ok x

def getInstallScript (req : Request) : Except String Install := do
  let publicUrl ← required "public_url must be a valid http(s) URL without shell metacharacters"
    (sanitizeHubUrl protocol req.publicUrl)
  let _ ← required
    "public_url must be an https:// URL — it is the agent's fallback path across the internet"
    (sanitizeFallbackHubUrl protocol publicUrl.val)
  let tunnelUrl ← required "tunnel_url must be a valid http(s) URL without shell metacharacters"
    (sanitizeHubUrl protocol req.tunnelUrl)
  let regToken ← required
    ("Agent has no pending registration token; call POST /api/agents/:id/reset-token before " ++
     "fetching the install script") req.regToken
  let wgInterface ← AgentSync.sanitizeWgInterface req.wgInterface
  let mode ← sanitizeAgentMode req.mode
  .ok ⟨req.id, regToken, publicUrl, tunnelUrl, mode, wgInterface⟩

end

def Install.lines (i : Install) : List Line :=
  [entry fgtoken i.regToken.text, entry primaryUrl i.tunnelUrl.val,
    entry fallbackUrl i.publicUrl.val,
    entry "FGAGENT_ID".toList (Nat.toDigits 10 i.id), entry "AGENT_MODE".toList i.mode.toList,
    entry "WG_INTERFACE".toList i.wgInterface.toList, "POLL_INTERVAL=30".toList]

/-! The agent. -/

/-- `valid_hub_url`: `grep` looks at every line of the text. -/
def validHubUrl (url : Value) : Bool := (url.splitOn '\n').any isHubUrl

/-- `upsert_env` -/
def upsertEnv (key value : List Char) (file : List Line) : Option (List Line) :=
  if file.any (start key).isPrefixOf then sed key value file else some (append key value file)

/-- The variables of the running loop. -/
structure Vars where
  token : Value
  primary : Value
  fallback : Value
deriving DecidableEq

def varsOf (env : Env) : Option Vars := do
  let token ← env fgtoken
  let primary ← env primaryUrl
  let fallback ← env fallbackUrl
  some ⟨token, primary, fallback⟩

/-- What the loop has taken over and goes on to write. -/
inductive Write
  | token (t : Token)
  | primary (u : HubUrl)
  | fallback (u : HubUrl)

def Write.key : Write → List Char
  | token _ => fgtoken
  | primary _ => primaryUrl
  | fallback _ => fallbackUrl

def Write.value : Write → Value
  | token t => t.text
  | primary u => u.val
  | fallback u => u.val

/-- What the scripts do with the file: the text of it, or what it stands for. -/
structure Store (φ : Type) where
  install : Install → φ
  /-- the install script, with the answer to its registration -/
  installed : Token → φ → Option φ
  write : Write → φ → Option φ
  /-- `source` -/
  vars : φ → Option Vars
  /-- `FILE_TOKEN` -/
  fileToken : φ → Option Value

def isTokenChar (c : Char) : Bool := c.isAlphanum || c == '_' || c == '-'

def textStore : Store (List Line) where
  install := Install.lines
  installed t file := sed fgtoken t.text file
  write w file := match w with
    | .token t => some (subFirst fgtoken t.text file)
    | w => upsertEnv w.key w.value file
  vars file := (source file).bind varsOf
  fileToken file := firstQuoted isTokenChar fgtoken file

structure State (φ : Type) where
  file : Option φ
  loop : Option Vars
  writing : Option Write

inductive Act
  /-- The script for the request is run. -/
  | install (req : Request)
  | installed (t : Token)
  | start
  /-- The loop ends, wherever it is. -/
  | stop
  | adoptToken
  /-- `rotate_token` -/
  | rotateToken (t : Token)
  /-- `update_server_urls` with the URLs of these settings; `answers`: what `reach` said. -/
  | adoptPrimary (row : HubSettings) (answers : Bool)
  | adoptFallback (row : HubSettings) (answers : Bool)
  | write
  | writeFailed

def adopts (new : Option HubUrl) (current : Value) (answers : Bool) : Option HubUrl :=
  new.filter fun u => validHubUrl u.val && u.val ≠ current && answers

section

variable {φ ψ : Type} (protocol : Value → Option String) (store : Store φ)

def step (s : State φ) : Act → Option (State φ)
  | .install req =>
    match getInstallScript protocol req with
    | .ok i => some { s with file := some (store.install i) }
    | .error _ => none
  | .installed t =>
    s.file.bind fun f => (store.installed t f).map fun f' => { s with file := some f' }
  | .start =>
    if s.loop = none then s.file.bind fun f => (store.vars f).map fun v => { s with loop := some v }
    else none
  | .stop => some { s with loop := none, writing := none }
  | .adoptToken =>
    match s.loop, s.writing with
    | some v, none => (s.file.bind store.fileToken).map fun t =>
        if t ≠ [] ∧ t ≠ v.token then { s with loop := some { v with token := t } } else s
    | _, _ => none
  | .rotateToken t =>
    match s.loop, s.writing with
    | some v, none =>
      some { s with loop := some { v with token := t.text }, writing := some (.token t) }
    | _, _ => none
  | .adoptPrimary row answers =>
    match s.loop, s.writing with
    | some v, none => (adopts (getAgentHubUrls protocol row).primary v.primary answers).map fun u =>
        { s with loop := some { v with primary := u.val }, writing := some (.primary u) }
    | _, _ => none
  | .adoptFallback row answers =>
    match s.loop, s.writing with
    | some v, none =>
      (adopts (getAgentHubUrls protocol row).fallback v.fallback answers).map fun u =>
        { s with loop := some { v with fallback := u.val }, writing := some (.fallback u) }
    | _, _ => none
  | .write =>
    s.writing.bind fun w => s.file.bind fun f => (store.write w f).map fun f' =>
      { s with file := some f', writing := none }
  | .writeFailed => s.writing.map fun _ => { s with writing := none }

abbrev Step (s : State φ) (a : Act) (t : State φ) : Prop := step protocol store s a = some t

end

def initial {φ : Type} : State φ := ⟨none, none, none⟩

/-! What the file stands for. -/

def Install.env (i : Install) : Env := fun k =>
  [(fgtoken, i.regToken.text), (primaryUrl, i.tunnelUrl.val), (fallbackUrl, i.publicUrl.val),
    ("FGAGENT_ID".toList, Nat.toDigits 10 i.id), ("AGENT_MODE".toList, i.mode.toList),
    ("WG_INTERFACE".toList, i.wgInterface.toList), ("POLL_INTERVAL".toList, "30".toList)].lookup k

/-- Variables with values, and a write that sets one of them. -/
def mapStore : Store Env where
  install := Install.env
  installed t env := some (Function.update env fgtoken (some t.text))
  write w env := some (Function.update env w.key (some w.value))
  vars := varsOf
  fileToken env := env fgtoken

section

variable {c : Char} {k url v : Value} {file : List Line} {e : Env} {es : List Entry} {w : Write}
  {i : Install}
  {protocol : Value → Option String}

/-! No value has a character that means something to the shell or to `sed`. -/

theorem ne_of_isUrlChar (h : isUrlChar c = true) {b : Char} (hb : isUrlChar b = false) : c ≠ b := by
  rintro rfl
  rw [h] at hb
  cases hb

theorem isLiteral_of_isUrlChar (h : isUrlChar c = true) : isLiteral c = true := by
  have htick : c.toNat ≠ 0x60 := by
    intro hn
    refine ne_of_isUrlChar h (b := Char.ofNat 0x60) (by decide) ?_
    rw [← hn, Char.ofNat_toNat]
  simp [isLiteral, ne_of_isUrlChar h (b := '"') (by decide),
    ne_of_isUrlChar h (b := '$') (by decide),
    ne_of_isUrlChar h (b := '\\') (by decide), ne_of_isUrlChar h (b := '\n') (by decide), htick]

theorem isUrlChar_of_isHubUrl (h : isHubUrl url = true) : ∀ c ∈ url, isUrlChar c = true := by
  have hread : ∀ scheme : List Char, (∀ c ∈ scheme, isUrlChar c = true) → scheme <+: url →
      (url.drop scheme.length).all isUrlChar = true → ∀ c ∈ url, isUrlChar c = true := by
    rintro scheme hscheme ⟨rest, rfl⟩ hall c hc
    rw [List.drop_left] at hall
    rcases List.mem_append.mp hc with hc | hc
    · exact hscheme c hc
    · exact List.all_eq_true.mp hall c hc
  obtain ⟨scheme, hmem, hurl⟩ := List.any_eq_true.mp h
  simp only [Bool.and_eq_true, List.isPrefixOf_iff_prefix] at hurl
  obtain ⟨⟨hpre, -⟩, hall⟩ := hurl
  rcases List.mem_pair.mp hmem with rfl | rfl
  · exact hread _ (by decide) hpre hall
  · exact hread _ (by decide) hpre hall

theorem isTokenChar_of_hex (t : Token) :
    t.text.all isTokenChar = true ∧ ∀ c ∈ t.text, isUrlChar c = true := by
  have hdigits : ∀ d ∈ "0123456789abcdef".toList, isTokenChar d = true ∧ isUrlChar d = true := by
    decide
  have hall : ∀ c ∈ t.text, isTokenChar c = true ∧ isUrlChar c = true := fun c hc =>
    hdigits c (List.contains_iff_mem.mp (List.all_eq_true.mp t.hex c hc))
  exact ⟨List.all_eq_true.mpr fun c hc => (hall c hc).1, fun c hc => (hall c hc).2⟩

theorem isUrlChar_value (w : Write) : ∀ c ∈ w.value, isUrlChar c = true := by
  cases w with
  | token t => exact (isTokenChar_of_hex t).2
  | primary u => exact isUrlChar_of_isHubUrl u.2
  | fallback u => exact isUrlChar_of_isHubUrl u.2

theorem key_mem (w : Write) : w.key ∈ [fgtoken, primaryUrl, fallbackUrl] := by
  cases w <;> simp [Write.key]

theorem isName_key (w : Write) : isName w.key = true := by
  have hall : ∀ k ∈ [fgtoken, primaryUrl, fallbackUrl], isName k = true := by decide
  exact hall _ (key_mem w)

theorem all_isLiteral (h : ∀ c ∈ v, isUrlChar c = true) : v.all isLiteral = true :=
  List.all_eq_true.mpr fun c hc => isLiteral_of_isUrlChar (h c hc)

def Write.entry (w : Write) : Entry :=
  ⟨w.key, w.value, true, isName_key w, all_isLiteral (isUrlChar_value w)⟩

theorem verbatim_entry (w : Write) : Verbatim (EnvFile.entry w.key w.value) := by
  have hurl : ∀ c, isUrlChar c = true → c ≠ '|' ∧ c ≠ '&' ∧ c ≠ '\\' ∧ c ≠ '\n' := fun c hc =>
    ⟨ne_of_isUrlChar hc (by decide), ne_of_isUrlChar hc (by decide), ne_of_isUrlChar hc (by decide),
      ne_of_isUrlChar hc (by decide)⟩
  have hkeys : ∀ k ∈ [fgtoken, primaryUrl, fallbackUrl], ∀ c ∈ start k, c ≠ '|' ∧ c ≠ '&' ∧
      c ≠ '\\' ∧ c ≠ '\n' := by decide
  intro c hc
  rcases List.mem_append.mp hc with hc | hc
  · rcases List.mem_append.mp hc with hc | hc
    · exact hkeys _ (key_mem w) c hc
    · rcases List.mem_cons.mp hc with rfl | hc
      · decide
      · exact hurl c (isUrlChar_value w c hc)
  · rw [List.mem_singleton.mp hc]
    decide

/-! The text of the file and what it stands for. -/

/-- The file holds these variables and nothing else, each once, and a token between quotes. -/
def Stands (file : List Line) (e : Env) : Prop :=
  ∃ es : List Entry, file = es.map Entry.text ∧ EnvFile.env es = e ∧ (keys es).Nodup ∧
    fgtoken ∈ keys es ∧
    ∀ x ∈ es, x.key = fgtoken → x.quoted = true ∧ x.value.all isTokenChar = true

theorem Stands.source (h : Stands file e) : EnvFile.source file = some e := by
  obtain ⟨es, rfl, rfl, hnodup, -⟩ := h
  exact source_texts hnodup

theorem Stands.firstQuoted (h : Stands file e) :
    EnvFile.firstQuoted isTokenChar fgtoken file = e fgtoken := by
  obtain ⟨es, rfl, rfl, -, -, htoken⟩ := h
  exact firstQuoted_texts (by decide) htoken

theorem token_entry (w : Write) (h : w.key = fgtoken) : w.value.all isTokenChar = true := by
  cases w with
  | token t => exact (isTokenChar_of_hex t).1
  | primary u => exact absurd (show primaryUrl = fgtoken from h) (by decide)
  | fallback u => exact absurd (show fallbackUrl = fgtoken from h) (by decide)

/-- One line is written anew. -/
theorem stands_set (hnodup : (keys es).Nodup) (hkey : fgtoken ∈ keys es) (hw : w.key ∈ keys es)
    (htoken : ∀ x ∈ es, x.key = fgtoken → x.quoted = true ∧ x.value.all isTokenChar = true) :
    Stands ((es.map (·.set w.key w.entry)).map Entry.text)
      (Function.update (EnvFile.env es) w.key (some w.value)) := by
  have hkeys : keys (es.map (·.set w.key w.entry)) = keys es := keys_set rfl
  refine ⟨_, rfl, env_set rfl hw, ?_, ?_, ?_⟩
  · rwa [hkeys]
  · rwa [hkeys]
  · intro x hx hfg
    obtain ⟨y, hy, rfl⟩ := List.mem_map.mp hx
    rw [Entry.set] at hfg ⊢
    split at hfg
    · next hset =>
      rw [if_pos hset]
      exact ⟨rfl, token_entry w hfg⟩
    · next hset =>
      rw [if_neg hset]
      exact htoken y hy hfg

theorem stands_upsertEnv (h : Stands file e) (w : Write) :
    ∃ file', upsertEnv w.key w.value file = some file' ∧
    Stands file' (Function.update e w.key (some w.value)) := by
  obtain ⟨es, rfl, rfl, hnodup, hkey, htoken⟩ := h
  have hany : (es.map Entry.text).any (start w.key).isPrefixOf = true ↔ w.key ∈ keys es :=
    any_isPrefixOf_texts (isName_key w)
  rw [upsertEnv]
  by_cases hw : w.key ∈ keys es
  · rw [if_pos (hany.mpr hw)]
    exact ⟨_, @sed_texts es w.entry rfl (verbatim_entry w), stands_set hnodup hkey hw htoken⟩
  · rw [if_neg fun ht => hw (hany.mp ht)]
    have hline : '\n' ∉ EnvFile.entry w.key w.value := fun hc => (verbatim_entry w _ hc).2.2.2 rfl
    refine ⟨_, rfl, es ++ [w.entry], @append_texts es w.entry rfl hline, env_append rfl hw, ?_, ?_,
      ?_⟩
    · rw [keys, List.map_append, List.map_singleton]
      exact List.nodup_append.mpr ⟨hnodup, List.nodup_singleton _, fun x hx y hy hxy =>
        hw (show w.entry.key ∈ keys es from (hxy.trans (List.mem_singleton.mp hy)) ▸ hx)⟩
    · rw [keys, List.map_append]
      exact List.mem_append_left _ hkey
    · intro x hx hfg
      rcases List.mem_append.mp hx with hx | hx
      · exact htoken x hx hfg
      · rw [List.mem_singleton.mp hx] at hfg ⊢
        exact ⟨rfl, token_entry w hfg⟩

theorem stands_write (h : Stands file e) (w : Write) :
    ∃ file', textStore.write w file = some file' ∧
    Stands file' (Function.update e w.key (some w.value)) := by
  cases w with
  | primary u => exact stands_upsertEnv h (.primary u)
  | fallback u => exact stands_upsertEnv h (.fallback u)
  | token t =>
    obtain ⟨es, rfl, rfl, hnodup, hkey, htoken⟩ := h
    refine ⟨_, congrArg some (@subFirst_texts es (Write.token t).entry rfl hnodup), ?_⟩
    exact stands_set (w := .token t) hnodup hkey hkey htoken

theorem stands_installed (h : Stands file e) (t : Token) :
    ∃ file', textStore.installed t file = some file' ∧
    Stands file' (Function.update e fgtoken (some t.text)) := by
  obtain ⟨es, rfl, rfl, hnodup, hkey, htoken⟩ := h
  refine ⟨_, @sed_texts es (Write.token t).entry rfl (verbatim_entry (.token t)), ?_⟩
  exact stands_set (w := .token t) hnodup hkey hkey htoken

/-! The file of the install script. -/

theorem isHttps_mono (h : isHttps v = true) (hp : v <+: url) : isHttps url = true := by
  obtain ⟨rest, rfl⟩ := hp
  rw [isHttps, List.isPrefixOf_iff_prefix] at h ⊢
  rw [List.map_append]
  exact h.trans (List.prefix_append _ _)

theorem of_sanitizeHubUrl {u : HubUrl} (h : sanitizeHubUrl protocol url = some u) :
    u.val <+: trim url := by
  unfold sanitizeHubUrl at h
  dsimp only at h
  split at h
  · cases h
  · split at h
    · split at h
      · obtain rfl := Option.some.inj h
        exact List.rdropWhile_prefix _ _
      · cases h
    · cases h

/-- The hub takes its own URLs again, and the agent does. -/
theorem trim_hubUrl (u : HubUrl) : trim u.val = u.val := by
  refine trim_of_forall fun c hc => ?_
  have hurl := isUrlChar_of_isHubUrl u.2 c hc
  rw [isUrlChar, Bool.or_eq_true] at hurl
  rcases hurl with halnum | hmark
  · exact isSpace_eq_false_of_isAlphanum halnum
  · have hmarks : ∀ d ∈ "._~%:@+=,/-".toList, isSpace d = false := by decide
    exact hmarks c (List.contains_iff_mem.mp hmark)

theorem isHttps_of_fallback {u : HubUrl} (h : sanitizeFallbackHubUrl protocol url = some u) :
    isHttps u.val = true ∧ sanitizeHubUrl protocol url = some u :=
  (Option.filter_eq_some_iff.mp h).symm

theorem alphanum_of_sanitizeWgInterface {name : Option String} {iface : String}
    (h : AgentSync.sanitizeWgInterface name = .ok iface) :
    ∀ c ∈ iface.toList, c.isAlphanum = true := by
  unfold AgentSync.sanitizeWgInterface at h
  dsimp only at h
  split at h
  · next hif =>
    obtain rfl := Except.ok.inj h
    generalize (name.filter (· ≠ "")).getD "wg0" = n at hif
    rw [Bool.and_eq_true] at hif
    obtain ⟨digits, hdigits⟩ := List.isPrefixOf_iff_prefix.mp hif.1
    obtain ⟨k, hk⟩ := Option.isSome_iff_exists.mp hif.2
    have hn : n.toList = 'w' :: 'g' :: digits := hdigits.symm
    rw [hn] at hk
    intro c hc
    rw [hn, List.mem_cons, List.mem_cons] at hc
    rcases hc with rfl | rfl | hc
    · decide
    · decide
    · simp [Char.isAlphanum, (digits_of_number hk).2 c hc]
  · cases h

theorem of_sanitizeAgentMode {mode : Option String} {m : String}
    (h : sanitizeAgentMode mode = .ok m) : m = "native" := by
  unfold sanitizeAgentMode at h
  dsimp only at h
  split at h
  · next hif =>
    obtain rfl := Except.ok.inj h
    exact List.mem_singleton.mp (List.contains_iff_mem.mp hif)
  · cases h

theorem isUrlChar_of_isAlphanum (h : c.isAlphanum = true) : isUrlChar c = true := by
  rw [isUrlChar, h, Bool.true_or]

theorem required_eq_ok {α : Type} {message : String} {o : Option α} {x : α}
    (h : required message o = .ok x) : o = some x := by
  cases o with
  | none => cases h
  | some y => exact congrArg some (Except.ok.inj h)

/-- What a script that is handed out is made of. -/
theorem of_getInstallScript {req : Request} (h : getInstallScript protocol req = .ok i) :
    isHttps i.publicUrl.val = true ∧ i.mode = "native" ∧ ∀ c ∈ i.wgInterface.toList,
    c.isAlphanum = true := by
  obtain ⟨u, hu, h⟩ := Checked.bind_eq_ok.mp h
  obtain ⟨u', hu', h⟩ := Checked.bind_eq_ok.mp h
  obtain ⟨tunnel, -, h⟩ := Checked.bind_eq_ok.mp h
  obtain ⟨reg, -, h⟩ := Checked.bind_eq_ok.mp h
  obtain ⟨iface, hiface, h⟩ := Checked.bind_eq_ok.mp h
  obtain ⟨mode, hmode, h⟩ := Checked.bind_eq_ok.mp h
  obtain rfl := Except.ok.inj h
  obtain ⟨hhttps, hsame⟩ := isHttps_of_fallback (required_eq_ok hu')
  refine ⟨isHttps_mono hhttps ?_, of_sanitizeAgentMode hmode,
    alphanum_of_sanitizeWgInterface hiface⟩
  exact trim_hubUrl u ▸ of_sanitizeHubUrl hsame

def Install.entries (i : Install) (hiface : ∀ c ∈ i.wgInterface.toList, c.isAlphanum = true)
    (hmode : ∀ c ∈ i.mode.toList, c.isAlphanum = true) : List Entry :=
  [(Write.token i.regToken).entry, (Write.primary i.tunnelUrl).entry,
    (Write.fallback i.publicUrl).entry,
    ⟨"FGAGENT_ID".toList, Nat.toDigits 10 i.id, true, by decide,
      all_isLiteral fun _ hc =>
        isUrlChar_of_isAlphanum (by simp [Char.isAlphanum, mem_toDigits_isDigit hc])⟩,
    ⟨"AGENT_MODE".toList, i.mode.toList, true,
      by decide, all_isLiteral fun c hc => isUrlChar_of_isAlphanum (hmode c hc)⟩,
    ⟨"WG_INTERFACE".toList, i.wgInterface.toList, true,
      by decide, all_isLiteral fun c hc => isUrlChar_of_isAlphanum (hiface c hc)⟩,
    ⟨"POLL_INTERVAL".toList, "30".toList, false, by decide, by decide⟩]

theorem stands_install {req : Request} (h : getInstallScript protocol req = .ok i) :
    Stands i.lines i.env := by
  obtain ⟨-, hmode, hiface⟩ := of_getInstallScript h
  have hnative : ∀ c ∈ i.mode.toList, c.isAlphanum = true := by
    rw [hmode]
    decide
  have hkeys : (keys (i.entries hiface hnative)).Nodup := by
    have hnodup : [fgtoken, primaryUrl, fallbackUrl, "FGAGENT_ID".toList, "AGENT_MODE".toList,
      "WG_INTERFACE".toList,
      "POLL_INTERVAL".toList].Nodup := by decide
    exact hnodup
  refine ⟨i.entries hiface hnative, rfl, ?_, hkeys, List.mem_cons_self, ?_⟩
  · funext k
    rw [env_eq_lookup]
    rfl
  · intro x hx hfg
    rcases List.mem_cons.mp hx with rfl | hx
    · exact ⟨rfl, (isTokenChar_of_hex i.regToken).1⟩
    · have hnew : fgtoken ∉ [primaryUrl, fallbackUrl, "FGAGENT_ID".toList, "AGENT_MODE".toList,
        "WG_INTERFACE".toList,
        "POLL_INTERVAL".toList] := by decide
      exact absurd (hfg ▸ List.mem_map_of_mem hx) hnew

/-! Runs. -/

variable {s s' : State (List Line)} {t : State Env} {a : Act} {xs : List Act}

/-- The same agent, with the text of the file and with what it stands for. -/
structure Rel (s : State (List Line)) (t : State Env) : Prop where
  loop : s.loop = t.loop
  writing : s.writing = t.writing
  file : Option.Rel Stands s.file t.file

theorem rel_initial : Rel initial initial := ⟨rfl, rfl, .none⟩

theorem step_rel (hr : Rel s t) (h : Step protocol textStore s a s') :
    ∃ t', Step protocol mapStore t a t' ∧ Rel s' t' := by
  obtain ⟨file, loop, writing⟩ := s
  obtain ⟨env, loop', writing'⟩ := t
  obtain ⟨hloop, hwriting, hfile⟩ := hr
  dsimp only at hloop hwriting hfile
  subst hloop hwriting
  cases a with
  | install req =>
    simp only [Step, step] at h ⊢
    cases hi : getInstallScript protocol req with
    | error m => simp [hi] at h
    | ok i =>
      simp only [hi] at h ⊢
      obtain rfl := Option.some.inj h
      exact ⟨_, rfl, rfl, rfl, .some (stands_install hi)⟩
  | installed tok =>
    cases hfile with
    | none => cases h
    | some hst =>
      obtain ⟨f', hf', hst'⟩ := stands_installed hst tok
      simp only [Step, step, Option.bind_some, hf', Option.map_some] at h
      obtain rfl := Option.some.inj h
      exact ⟨_, rfl, rfl, rfl, .some hst'⟩
  | start =>
    cases loop with
    | some v => cases h
    | none =>
      cases hfile with
      | none => cases h
      | @some f e hst =>
        have hvars : textStore.vars f = varsOf e := congrArg (·.bind varsOf) hst.source
        simp only [Step, step, if_true, Option.bind_some, hvars] at h
        obtain ⟨v, hv, rfl⟩ := Option.map_eq_some_iff.mp h
        refine ⟨⟨some e, some v, writing⟩, ?_, rfl, rfl, .some hst⟩
        simp [Step, step, mapStore, hv]
  | stop =>
    obtain rfl := Option.some.inj h
    exact ⟨_, rfl, rfl, rfl, hfile⟩
  | adoptToken =>
    cases loop with
    | none => cases h
    | some v =>
      cases writing with
      | some w => cases h
      | none =>
        cases hfile with
        | none => cases h
        | @some f e hst =>
          have htoken : textStore.fileToken f = e fgtoken := hst.firstQuoted
          simp only [Step, step, Option.bind_some, htoken] at h
          obtain ⟨tok, htok, rfl⟩ := Option.map_eq_some_iff.mp h
          refine ⟨if tok ≠ [] ∧ tok ≠ v.token then ⟨some e, some { v with token := tok }, none⟩
            else ⟨some e, some v, none⟩, ?_, ?_⟩
          · simp [Step, step, mapStore, htok]
          · split
            · exact ⟨rfl, rfl, .some hst⟩
            · exact ⟨rfl, rfl, .some hst⟩
  | rotateToken tok =>
    cases loop with
    | none => cases h
    | some v =>
      cases writing with
      | some w => cases h
      | none =>
        obtain rfl := Option.some.inj h
        exact ⟨_, rfl, rfl, rfl, hfile⟩
  | adoptPrimary row answers =>
    cases loop with
    | none => cases h
    | some v =>
      cases writing with
      | some w => cases h
      | none =>
        simp only [Step, step] at h ⊢
        obtain ⟨u, hu, rfl⟩ := Option.map_eq_some_iff.mp h
        exact ⟨_, Option.map_eq_some_iff.mpr ⟨u, hu, rfl⟩, rfl, rfl, hfile⟩
  | adoptFallback row answers =>
    cases loop with
    | none => cases h
    | some v =>
      cases writing with
      | some w => cases h
      | none =>
        simp only [Step, step] at h ⊢
        obtain ⟨u, hu, rfl⟩ := Option.map_eq_some_iff.mp h
        exact ⟨_, Option.map_eq_some_iff.mpr ⟨u, hu, rfl⟩, rfl, rfl, hfile⟩
  | write =>
    cases writing with
    | none => cases h
    | some w =>
      cases hfile with
      | none => cases h
      | some hst =>
        obtain ⟨f', hf', hst'⟩ := stands_write hst w
        simp only [Step, step, Option.bind_some, hf', Option.map_some] at h
        obtain rfl := Option.some.inj h
        exact ⟨_, rfl, rfl, rfl, .some hst'⟩
  | writeFailed =>
    cases writing with
    | none => cases h
    | some w =>
      obtain rfl := Option.some.inj h
      exact ⟨_, rfl, rfl, rfl, hfile⟩

theorem run_rel (h : Run (Step protocol textStore) s xs s') (hr : Rel s t) :
    ∃ t', Run (Step protocol mapStore) t xs t' ∧ Rel s' t' := by
  induction h generalizing t with
  | nil => exact ⟨t, .nil t, hr⟩
  | cons hs _ ih =>
    obtain ⟨u, hu, hru⟩ := step_rel hr hs
    obtain ⟨t', ht', hrt⟩ := ih hru
    exact ⟨t', .cons hu ht', hrt⟩

/-- Whatever is installed and handed out, in any order and with the loop stopped anywhere: the file
is a map. A shell that sources it assigns its variables and does nothing else, each write sets one
of them, and the loop finds the token the shell would. -/
theorem source_refines (h : Run (Step protocol textStore) initial xs s) :
    ∃ t, Run (Step protocol mapStore) initial xs t ∧
    s.loop = t.loop ∧ s.writing = t.writing ∧ s.file.map source = t.file.map some ∧
    s.file.map (firstQuoted isTokenChar fgtoken) = t.file.map (· fgtoken) := by
  obtain ⟨t, ht, hr⟩ := run_rel h rel_initial
  have hfile := hr.file
  refine ⟨t, ht, hr.loop, hr.writing, ?_⟩
  generalize s.file = file at hfile ⊢
  generalize t.file = env at hfile ⊢
  cases hfile with
  | none => exact ⟨rfl, rfl⟩
  | some hst => exact ⟨congrArg some hst.source, congrArg some hst.firstQuoted⟩

/-! The URLs. -/

/-- The variables after one write. -/
def Vars.set (v : Vars) : Write → Vars
  | .token t => { v with token := t.text }
  | .primary u => { v with primary := u.val }
  | .fallback u => { v with fallback := u.val }

/-- What the hub hands out with the step has `P` for the first URL and `Q` for the fallback. -/
def Hands (protocol : Value → Option String) (P Q : Value → Prop) : Act → Prop
  | .install req =>
    ∀ i ∈ (getInstallScript protocol req).toOption, P i.tunnelUrl.val ∧ Q i.publicUrl.val
  | .adoptPrimary row _ => ∀ u ∈ (getAgentHubUrls protocol row).primary, P u.val
  | .adoptFallback row _ => ∀ u ∈ (getAgentHubUrls protocol row).fallback, Q u.val
  | _ => True

instance (P Q : Value → Prop) [DecidablePred P] [DecidablePred Q] (a : Act) :
    Decidable (Hands protocol P Q a) :=
  match a with
  | .install req =>
    inferInstanceAs
      (Decidable (∀ i ∈ (getInstallScript protocol req).toOption, P i.tunnelUrl.val ∧
        Q i.publicUrl.val))
  | .adoptPrimary row _ =>
    inferInstanceAs (Decidable (∀ u ∈ (getAgentHubUrls protocol row).primary, P u.val))
  | .adoptFallback row _ =>
    inferInstanceAs (Decidable (∀ u ∈ (getAgentHubUrls protocol row).fallback, Q u.val))
  | .installed _ | .start | .stop | .adoptToken | .rotateToken _ | .write | .writeFailed =>
    inferInstanceAs (Decidable True)

structure Safe (P Q : Value → Prop) (t : State Env) : Prop where
  loop : ∀ v, t.loop = some v → P v.primary ∧ Q v.fallback
  file : ∀ e, t.file = some e → ∃ v, varsOf e = some v ∧ P v.primary ∧ Q v.fallback
  writing : ∀ w, t.writing = some w → ∀ v : Vars, P v.primary ∧ Q v.fallback → P (v.set w).primary ∧
    Q (v.set w).fallback

theorem varsOf_eq_some {v : Vars} :
    varsOf e = some v ↔ e fgtoken = some v.token ∧ e primaryUrl = some v.primary ∧
    e fallbackUrl = some v.fallback := by
  obtain ⟨token, primary, fallback⟩ := v
  cases h₁ : e fgtoken <;> cases h₂ : e primaryUrl <;> cases h₃ : e fallbackUrl <;>
    simp [varsOf, h₁, h₂, h₃]

theorem varsOf_update {v : Vars} (h : varsOf e = some v) (w : Write) :
    varsOf (Function.update e w.key (some w.value)) = some (v.set w) := by
  obtain ⟨htoken, hprimary, hfallback⟩ := varsOf_eq_some.mp h
  have hne : fgtoken ≠ primaryUrl ∧ fgtoken ≠ fallbackUrl ∧ primaryUrl ≠ fallbackUrl := by decide
  obtain ⟨htp, htf, hpf⟩ := hne
  rw [varsOf_eq_some]
  cases w with
  | token t => simp [Write.key, Write.value, Vars.set, htp.symm, htf.symm, hprimary, hfallback]
  | primary u => simp [Write.key, Write.value, Vars.set, htp, hpf.symm, htoken, hfallback]
  | fallback u => simp [Write.key, Write.value, Vars.set, htf, hpf, htoken, hprimary]

theorem varsOf_install (i : Install) :
    varsOf i.env = some ⟨i.regToken.text, i.tunnelUrl.val, i.publicUrl.val⟩ := rfl

theorem isHttps_getAgentHubUrls {row : HubSettings} {u : HubUrl}
    (h : (getAgentHubUrls protocol row).fallback = some u) :
    isHttps u.val = true := by
  have hread : ∀ o : Option Value, o.bind (sanitizeFallbackHubUrl protocol) = some u →
      isHttps u.val = true := by
    intro o ho
    obtain ⟨url, -, hurl⟩ := Option.bind_eq_some_iff.mp ho
    exact (isHttps_of_fallback hurl).1
  cases hrow : row.value.bind (sanitizeFallbackHubUrl protocol) with
  | some u' =>
    rw [getAgentHubUrls, hrow] at h
    obtain rfl := Option.some.inj h
    exact hread _ hrow
  | none =>
    rw [getAgentHubUrls, hrow] at h
    exact hread _ h

theorem adopts_eq_some {new : Option HubUrl} {u : HubUrl} {answers : Bool}
    (h : adopts new v answers = some u) : new = some u :=
  (Option.filter_eq_some_iff.mp h).1

variable {P Q : Value → Prop}

theorem step_safe {t' : State Env} (h : Step protocol mapStore t a t')
    (hands : Hands protocol P Q a) (hs : Safe P Q t) :
    Safe P Q t' := by
  obtain ⟨file, loop, writing⟩ := t
  obtain ⟨hloop, hfile, hwriting⟩ := hs
  dsimp only at hloop hfile hwriting
  cases a with
  | install req =>
    simp only [Step, step] at h
    split at h
    · next i hi =>
      obtain rfl := Option.some.inj h
      refine ⟨hloop, ?_, hwriting⟩
      intro e he
      obtain rfl := Option.some.inj he
      have hmem : i ∈ (getInstallScript protocol req).toOption := by rw [hi]; rfl
      exact ⟨_, varsOf_install i, hands i hmem⟩
    · cases h
  | installed tok =>
    cases file with
    | none => cases h
    | some e =>
      obtain rfl := Option.some.inj h
      refine ⟨hloop, ?_, hwriting⟩
      intro e' he'
      obtain rfl := Option.some.inj he'
      obtain ⟨v, hv, hgood⟩ := hfile e rfl
      exact ⟨_, varsOf_update hv (.token tok), hgood⟩
  | start =>
    cases loop with
    | some v => cases h
    | none =>
      cases file with
      | none => cases h
      | some e =>
        obtain ⟨v, hv, hgood⟩ := hfile e rfl
        simp only [Step, step, mapStore, if_true, Option.bind_some, hv, Option.map_some] at h
        obtain rfl := Option.some.inj h
        refine ⟨?_, hfile, hwriting⟩
        intro v' hv'
        exact Option.some.inj hv' ▸ hgood
  | stop =>
    obtain rfl := Option.some.inj h
    exact ⟨nofun, hfile, nofun⟩
  | adoptToken =>
    cases loop with
    | none => cases h
    | some v =>
      cases writing with
      | some w => cases h
      | none =>
        obtain ⟨tok, -, rfl⟩ := Option.map_eq_some_iff.mp h
        split
        · refine ⟨?_, hfile, hwriting⟩
          intro v' hv'
          obtain rfl := Option.some.inj hv'
          exact hloop v rfl
        · exact ⟨hloop, hfile, hwriting⟩
  | rotateToken tok =>
    cases loop with
    | none => cases h
    | some v =>
      cases writing with
      | some w => cases h
      | none =>
        obtain rfl := Option.some.inj h
        refine ⟨?_, hfile, ?_⟩
        · intro v' hv'
          obtain rfl := Option.some.inj hv'
          exact hloop v rfl
        · intro w hw v' hgood
          obtain rfl := Option.some.inj hw
          exact hgood
  | adoptPrimary row answers =>
    cases loop with
    | none => cases h
    | some v =>
      cases writing with
      | some w => cases h
      | none =>
        obtain ⟨u, hu, rfl⟩ := Option.map_eq_some_iff.mp h
        have hnew : P u.val := hands u (adopts_eq_some hu)
        refine ⟨?_, hfile, ?_⟩
        · intro v' hv'
          obtain rfl := Option.some.inj hv'
          exact ⟨hnew, (hloop v rfl).2⟩
        · intro w hw v' hgood
          obtain rfl := Option.some.inj hw
          exact ⟨hnew, hgood.2⟩
  | adoptFallback row answers =>
    cases loop with
    | none => cases h
    | some v =>
      cases writing with
      | some w => cases h
      | none =>
        obtain ⟨u, hu, rfl⟩ := Option.map_eq_some_iff.mp h
        have hnew : Q u.val := hands u (adopts_eq_some hu)
        refine ⟨?_, hfile, ?_⟩
        · intro v' hv'
          obtain rfl := Option.some.inj hv'
          exact ⟨(hloop v rfl).1, hnew⟩
        · intro w hw v' hgood
          obtain rfl := Option.some.inj hw
          exact ⟨hgood.1, hnew⟩
  | write =>
    cases writing with
    | none => cases h
    | some w =>
      cases file with
      | none => cases h
      | some e =>
        obtain rfl := Option.some.inj h
        refine ⟨hloop, ?_, nofun⟩
        intro e' he'
        obtain rfl := Option.some.inj he'
        obtain ⟨v, hv, hgood⟩ := hfile e rfl
        exact ⟨_, varsOf_update hv w, hwriting w rfl v hgood⟩
  | writeFailed =>
    cases writing with
    | none => cases h
    | some w =>
      obtain rfl := Option.some.inj h
      exact ⟨hloop, hfile, nofun⟩

/-- What all URLs have that are handed out, the URLs of the loop and of the file have. -/
theorem urls_handed
    (h : Run (Guarded (Step protocol textStore) fun _ a => Hands protocol P Q a) initial xs s) :
    (∀ v, s.loop = some v → P v.primary ∧ Q v.fallback) ∧
      ∀ f, s.file = some f → ∃ v, textStore.vars f = some v ∧ P v.primary ∧ Q v.fallback := by
  have hall : ∃ t, Rel s t ∧ Safe P Q t := by
    refine h.guarded_invariant (I := fun s => ∃ t, Rel s t ∧ Safe P Q t) ?_ ⟨initial, rel_initial,
      nofun, nofun, nofun⟩
    rintro u a u' hs hands ⟨t, hr, ht⟩
    obtain ⟨t', hstep, hr'⟩ := step_rel hr hs
    exact ⟨t', hr', step_safe hstep hands ht⟩
  obtain ⟨t, hr, hsafe⟩ := hall
  refine ⟨?_, ?_⟩
  · intro v hv
    exact hsafe.loop v (hr.loop ▸ hv)
  · intro f hf
    have hfile := hr.file
    rw [hf] at hfile
    generalize henv : t.file = env at hfile
    cases hfile with
    | some hst =>
      obtain ⟨v, hv, hgood⟩ := hsafe.file _ henv
      exact ⟨v, (congrArg (·.bind varsOf) hst.source).trans hv, hgood⟩

/-- The hub hands out what the whitelist takes, and a fallback with `https`. -/
theorem hands_good (a : Act) :
    Hands protocol (isHubUrl · = true) (fun u => isHubUrl u = true ∧ isHttps u = true) a := by
  cases a with
  | install req =>
    intro i hi
    cases hscript : getInstallScript protocol req with
    | error m =>
      rw [hscript] at hi
      cases hi
    | ok j =>
      rw [hscript] at hi
      obtain rfl : j = i := Option.some.inj hi
      exact ⟨j.tunnelUrl.2, j.publicUrl.2, (of_getInstallScript hscript).1⟩
  | adoptPrimary row answers => exact fun u _ => u.2
  | adoptFallback row answers => exact fun u hu => ⟨u.2, isHttps_getAgentHubUrls hu⟩
  | _ => trivial

/-- The whitelist, and `https` for the way across the internet. -/
def GoodUrls (v : Vars) : Prop :=
  isHubUrl v.primary = true ∧ isHubUrl v.fallback = true ∧ isHttps v.fallback = true

/-- In every run the loop uses, and the file gives back to a loop that starts, a fallback URL with
`https` and two URLs that the whitelist takes. -/
theorem urls_good (h : Run (Step protocol textStore) initial xs s) :
    (∀ v, s.loop = some v → GoodUrls v) ∧
    ∀ f, s.file = some f → ∃ v, textStore.vars f = some v ∧ GoodUrls v :=
  urls_handed (h.imp fun _ a _ hs => ⟨hs, hands_good a⟩)

/-! The server the loop talks to. -/

def http : List Char := "http://".toList

def https : List Char := "https://".toList

/-- `sed -E 's#^http://([^/:]+).*$#\1#'` -/
def tunnelHost (url : Value) : Value :=
  let host := (url.drop http.length).takeWhile fun c => c ≠ '/' && c ≠ ':'
  if http.isPrefixOf url && host ≠ [] then host else url

/-- Where a request for a plain `http` URL goes: `[userinfo@]host[:port]` up to the path. -/
def requestHost (url : Value) : Value :=
  let authority := (url.drop http.length).takeWhile (· ≠ '/')
  let server := if '@' ∈ authority then (authority.reverse.takeWhile (· ≠ '@')).reverse
    else authority
  server.takeWhile (· ≠ ':')

section

-- `getent ahostsv4`, whether the route of an address is a WireGuard device or loopback, and what
-- `reach` says
variable (resolve : Value → Option Value) (inTunnel : Value → Bool) (reach : Value → Bool)

def addressOf (host : Value) : Option Value :=
  if WireGuard.isDotted host then some host else resolve host

/-- `via_tunnel` -/
def viaTunnel (url : Value) : Bool :=
  if https.isPrefixOf url then true
  else if http.isPrefixOf url then (addressOf resolve (tunnelHost url)).any inTunnel
  else false

/-- `get_server` -/
def getServer (v : Vars) : Option Value :=
  if viaTunnel resolve inTunnel v.primary && reach v.primary then some v.primary
  else if viaTunnel resolve inTunnel v.fallback && reach v.fallback then some v.fallback
  else none

end

/-- A URL with `http` names a host, without escapes in it, and no user. -/
def Plain (url : Value) : Prop :=
  http.isPrefixOf url = true → '@' ∉ url ∧ requestHost url ≠ [] ∧ '%' ∉ requestHost url

instance (url : Value) : Decidable (Plain url) := inferInstanceAs (Decidable (_ → _))

/-- The host `via_tunnel` looks at is the one the request goes to. -/
theorem tunnelHost_eq (h : Plain url) (hhttp : http.isPrefixOf url = true) :
    tunnelHost url = requestHost url := by
  obtain ⟨huser, hhost, -⟩ := h hhttp
  have hauthority : '@' ∉ (url.drop http.length).takeWhile (· ≠ '/') := fun hat =>
    huser ((List.drop_sublist _ _).subset ((List.takeWhile_sublist _).subset hat))
  have hrequest : requestHost url = (url.drop http.length).takeWhile fun c => c ≠ '/' &&
      c ≠ ':' := by
    rw [requestHost, if_neg hauthority, List.takeWhile_takeWhile]
    congr 1
    funext c
    simp [and_comm]
  rw [hrequest] at hhost
  rw [hrequest]
  exact if_pos (Bool.and_eq_true_iff.mpr ⟨hhttp, decide_eq_true hhost⟩)

theorem viaTunnel_cases {resolve : Value → Option Value} {inTunnel : Value → Bool}
    (h : viaTunnel resolve inTunnel url = true)
    (hplain : Plain url) :
    https.isPrefixOf url = true ∨ ∃ addr, addressOf resolve (requestHost url) = some addr ∧
    inTunnel addr = true := by
  unfold viaTunnel at h
  split at h
  · next hhttps => exact .inl hhttps
  · split at h
    · next hhttp =>
      rw [tunnelHost_eq hplain hhttp] at h
      exact .inr ((Option.any_eq_true _ _).mp h)
    · cases h

/-- In every run in which all URLs are handed out as `Plain`, the loop sends its token with `https`
or to a host whose route is a tunnel. -/
theorem server_in_tunnel {resolve : Value → Option Value} {inTunnel reach : Value → Bool} {v : Vars}
    (h : Run (Guarded (Step protocol textStore) fun _ a => Hands protocol Plain Plain a) initial xs
      s) (hloop : s.loop = some v)
    (hserver : getServer resolve inTunnel reach v = some url) :
    https.isPrefixOf url = true ∨ ∃ addr, addressOf resolve (requestHost url) = some addr ∧
    inTunnel addr = true := by
  obtain ⟨hprimary, hfallback⟩ := (urls_handed h).1 v hloop
  unfold getServer at hserver
  split at hserver
  · next hcheck =>
    obtain rfl := Option.some.inj hserver
    exact viaTunnel_cases (Bool.and_eq_true_iff.mp hcheck).1 hprimary
  · split at hserver
    · next hcheck =>
      obtain rfl := Option.some.inj hserver
      exact viaTunnel_cases (Bool.and_eq_true_iff.mp hcheck).1 hfallback
    · cases hserver

/-- With a user the check looks at the user. -/
theorem user_not_in_tunnel : ∃ (url : Value) (inTunnel : Value → Bool), isHubUrl url = true ∧
    viaTunnel (fun _ => none) inTunnel url = true ∧
    addressOf (fun _ => none) (requestHost url) = some "203.0.113.5".toList ∧
    inTunnel "203.0.113.5".toList = false :=
  ⟨"http://10.8.0.1:1@203.0.113.5:3300".toList, fun a => "10.8.".toList.isPrefixOf a,
    by decide +kernel⟩

/-! Restarts. -/

/-- The script runs while no loop does, and the file can be written. -/
def Timely {φ : Type} (s : State φ) : Act → Prop
  | .install _ | .installed _ => s.loop = none
  | .writeFailed => False
  | _ => True

instance {φ : Type} (s : State φ) (a : Act) : Decidable (Timely s a) :=
  match a with
  | .install _ | .installed _ => inferInstanceAs (Decidable (s.loop = none))
  | .writeFailed => inferInstanceAs (Decidable False)
  | .start | .stop | .adoptToken | .rotateToken _ | .adoptPrimary _ _ | .adoptFallback _ _
      | .write => inferInstanceAs (Decidable True)

/-- What the loop has taken over is in the file, or is about to be written. -/
structure Agrees (t : State Env) : Prop where
  idle : t.loop = none → t.writing = none
  vars : ∀ v, t.loop = some v → ∃ e, t.file = some e ∧
    varsOf (t.writing.elim e fun w => Function.update e w.key (some w.value)) = some v

theorem agrees_none (file : Option Env) : Agrees ⟨file, none, none⟩ := ⟨fun _ => rfl, nofun⟩

/-- The loop takes over a value and goes on to write it. -/
theorem Agrees.take {file : Option Env} {v : Vars} (h : Agrees ⟨file, some v, none⟩) (w : Write) :
    Agrees ⟨file, some (v.set w), some w⟩ := by
  refine ⟨nofun, ?_⟩
  intro v' hv'
  obtain rfl := Option.some.inj hv'
  obtain ⟨e, he, hvars⟩ := h.vars v rfl
  exact ⟨e, he, varsOf_update hvars w⟩

theorem step_agrees {t' : State Env} (h : Step protocol mapStore t a t') (hok : Timely t a)
    (ht : Agrees t) : Agrees t' := by
  obtain ⟨file, loop, writing⟩ := t
  cases a with
  | install req =>
    obtain rfl : loop = none := hok
    obtain rfl : writing = none := ht.idle rfl
    simp only [Step, step] at h
    split at h
    · obtain rfl := Option.some.inj h
      exact agrees_none _
    · cases h
  | installed tok =>
    obtain rfl : loop = none := hok
    obtain rfl : writing = none := ht.idle rfl
    cases file with
    | none => cases h
    | some e =>
      obtain rfl := Option.some.inj h
      exact agrees_none _
  | start =>
    cases loop with
    | some v => cases h
    | none =>
      obtain rfl : writing = none := ht.idle rfl
      cases file with
      | none => cases h
      | some e =>
        simp only [Step, step, mapStore, if_true, Option.bind_some] at h
        obtain ⟨v, hv, rfl⟩ := Option.map_eq_some_iff.mp h
        refine ⟨nofun, ?_⟩
        intro v' hv'
        obtain rfl := Option.some.inj hv'
        exact ⟨e, rfl, hv⟩
  | stop =>
    obtain rfl := Option.some.inj h
    exact agrees_none _
  | adoptToken =>
    cases loop with
    | none => cases h
    | some v =>
      cases writing with
      | some w => cases h
      | none =>
        obtain ⟨tok, htok, rfl⟩ := Option.map_eq_some_iff.mp h
        split
        · refine ⟨nofun, ?_⟩
          intro v' hv'
          obtain rfl := Option.some.inj hv'
          obtain ⟨e, he, hvars⟩ := ht.vars v rfl
          obtain rfl : file = some e := he
          obtain ⟨-, hprimary, hfallback⟩ := varsOf_eq_some.mp hvars
          exact ⟨e, rfl, varsOf_eq_some.mpr ⟨htok, hprimary, hfallback⟩⟩
        · exact ht
  | rotateToken tok =>
    cases loop with
    | none => cases h
    | some v =>
      cases writing with
      | some w => cases h
      | none =>
        obtain rfl := Option.some.inj h
        exact ht.take (.token tok)
  | adoptPrimary row answers =>
    cases loop with
    | none => cases h
    | some v =>
      cases writing with
      | some w => cases h
      | none =>
        obtain ⟨u, -, rfl⟩ := Option.map_eq_some_iff.mp h
        exact ht.take (.primary u)
  | adoptFallback row answers =>
    cases loop with
    | none => cases h
    | some v =>
      cases writing with
      | some w => cases h
      | none =>
        obtain ⟨u, -, rfl⟩ := Option.map_eq_some_iff.mp h
        exact ht.take (.fallback u)
  | write =>
    cases writing with
    | none => cases h
    | some w =>
      cases file with
      | none => cases h
      | some e =>
        obtain rfl := Option.some.inj h
        refine ⟨fun _ => rfl, ?_⟩
        intro v hv
        obtain ⟨e', he', hvars⟩ := ht.vars v hv
        obtain rfl := Option.some.inj he'
        exact ⟨_, rfl, hvars⟩
  | writeFailed => exact hok.elim

theorem Rel.timely (hr : Rel s t) (hok : Timely s a) : Timely t a := by
  cases a with
  | install req => exact hr.loop.symm.trans hok
  | installed tok => exact hr.loop.symm.trans hok
  | writeFailed => exact hok
  | _ => trivial

/-- A loop that is stopped between two writes comes back with the token and the URLs it had. -/
theorem restart_same (h : Run (Guarded (Step protocol textStore) Timely) initial xs s)
    (hloop : s.loop ≠ none)
    (hwriting : s.writing = none) : Run (Step protocol textStore) s [.stop, .start] s := by
  have hagrees : ∃ t, Rel s t ∧ Agrees t := by
    refine h.guarded_invariant (I := fun s => ∃ t, Rel s t ∧ Agrees t) ?_ ⟨initial, rel_initial,
      agrees_none _⟩
    rintro u a u' hs hok ⟨t, hr, ht⟩
    obtain ⟨t', hstep, hr'⟩ := step_rel hr hs
    exact ⟨t', hr', step_agrees hstep (hr.timely hok) ht⟩
  obtain ⟨t, hr, ht⟩ := hagrees
  obtain ⟨file, loop, writing⟩ := s
  obtain rfl : writing = none := hwriting
  obtain ⟨v, rfl⟩ := Option.ne_none_iff_exists'.mp hloop
  obtain ⟨e, he, hvars⟩ := ht.vars v hr.loop.symm
  rw [← hr.writing] at hvars
  have hfile := hr.file
  rw [he] at hfile
  cases hfile with
  | @some f _ hst =>
    have hread : textStore.vars f = some v := (congrArg (·.bind varsOf) hst.source).trans hvars
    refine .cons rfl (.single ?_)
    simp [Step, step, hread]

end

/-! A run. -/

def sampleProtocol (url : Value) : Option String :=
  if isHttps url then some "https:" else some "http:"

def regToken : Token := ⟨List.replicate 64 'a', rfl, by decide⟩

def agentToken : Token := ⟨List.replicate 64 'b', rfl, by decide⟩

def sampleRequest : Request :=
  ⟨3, some regToken, none, none, "https://hub.example/".toList, "http://10.8.0.1:3300".toList⟩

def sampleVars : Vars :=
  ⟨agentToken.text, "http://10.9.0.1:3300".toList, "https://hub.example".toList⟩

/-- The answer to the registration comes while the loop runs, then the hub moves. -/
def sampleRun : List Act :=
  [.install sampleRequest, .start, .rotateToken agentToken, .write,
    .adoptPrimary ⟨none, some "http://10.9.0.1:3300".toList, none, none⟩ true,
    .write]

theorem sampleRun_runs :
    ∃ s, Run (Guarded (Step sampleProtocol textStore) Timely) initial sampleRun s ∧
    s.loop = some sampleVars ∧
    s.writing = none := by
  have hend : (sampleRun.foldlM (Run.checked (step sampleProtocol textStore) Timely) initial).any
      (fun s => decide (s.loop = some sampleVars) && s.writing.isNone) = true := by decide +kernel
  obtain ⟨s, hs, hprops⟩ := (Option.any_eq_true _ _).mp hend
  rw [Bool.and_eq_true, decide_eq_true_eq, Option.isNone_iff_eq_none] at hprops
  exact ⟨s, Run.of_checked hs, hprops⟩

theorem sampleRun_text : ∃ s, Run (Step sampleProtocol textStore) initial sampleRun s :=
  sampleRun_runs.imp fun _ h => h.1.of_guarded

theorem source_refines_sampleRun : ∃ (s : State (List Line)) (t : State Env),
    Run (Step sampleProtocol mapStore) initial sampleRun t ∧ s.loop = t.loop ∧
    s.writing = t.writing ∧ s.file.map source = t.file.map some ∧
    s.file.map (firstQuoted isTokenChar fgtoken) = t.file.map (· fgtoken) := by
  obtain ⟨s, hs⟩ := sampleRun_text
  exact ⟨s, source_refines hs⟩

theorem urls_good_sampleRun : ∃ s : State (List Line),
    s.loop = some sampleVars ∧ (∀ v, s.loop = some v → GoodUrls v) ∧
    ∀ f, s.file = some f → ∃ v, textStore.vars f = some v ∧ GoodUrls v := by
  obtain ⟨s, hs, hloop, -⟩ := sampleRun_runs
  exact ⟨s, hloop, urls_good hs.of_guarded⟩

theorem sampleRun_plain :
    ∃ s, Run (Guarded (Step sampleProtocol textStore) fun _ a => Hands sampleProtocol Plain Plain a)
      initial
    sampleRun s ∧ s.loop = some sampleVars := by
  have hend :
    (sampleRun.foldlM (Run.checked (step sampleProtocol textStore) fun _ a =>
      Hands sampleProtocol Plain Plain a) initial).any
      (fun s => decide (s.loop = some sampleVars)) = true := by decide +kernel
  obtain ⟨s, hs, hloop⟩ := (Option.any_eq_true _ _).mp hend
  exact ⟨s, Run.of_checked hs, of_decide_eq_true hloop⟩

theorem server_in_tunnel_sampleRun : https.isPrefixOf sampleVars.primary = true ∨
    ∃ addr, addressOf (fun _ => none) (requestHost sampleVars.primary) = some addr ∧
    "10.9.".toList.isPrefixOf addr = true := by
  obtain ⟨s, hs, hloop⟩ := sampleRun_plain
  have hserver : getServer (fun _ => none) (fun a => "10.9.".toList.isPrefixOf a) (fun _ => true)
      sampleVars = some sampleVars.primary := by
    decide +kernel
  exact server_in_tunnel hs hloop hserver

theorem restart_same_sampleRun : ∃ s : State (List Line), s.loop = some sampleVars ∧
    Run (Step sampleProtocol textStore) s [.stop, .start] s := by
  obtain ⟨s, hs, hloop, hwriting⟩ := sampleRun_runs
  exact ⟨s, hloop, restart_same hs (by rw [hloop]; exact nofun) hwriting⟩

end FloppyGuard.ConfigEnv
