import Mathlib.Data.List.Forall2

/-! Reading a configuration text into statements, character by character, for a dialect of the
reader, and when two dialects read the same statements. -/
namespace Statements

/-- What the readers of one syntax may do differently. `ends v c`: `c` ends an unquoted word (`v`:
an unescaped `$` stands right before it). `unescape c`: what a backslash and `c` add to a word. -/
structure Dialect where
  space : Char → Bool
  ends : Bool → Char → Bool
  unescape : Char → List Char

structure Token where
  word : List Char
  raw : List Char
deriving DecidableEq

structure Statement where
  name : Token
  args : List Token
deriving DecidableEq

/-- Between words, in a comment, in a quoted or an unquoted word; `escaped` after a backslash. -/
inductive Phase
  | between
  | comment
  | quoted (quote : Char) (escaped : Bool) (t : Token)
  | bare (afterDollar escaped : Bool) (t : Token)
deriving DecidableEq

structure Reader where
  statements : List Statement
  words : List Token
  phase : Phase

namespace Reader

def init : Reader := ⟨[], [], .between⟩

def push (r : Reader) (t : Token) : Reader := ⟨r.statements, r.words ++ [t], .between⟩

def endStatement (r : Reader) : Reader where
  statements := match r.words with
    | [] => r.statements
    | name :: args => r.statements ++ [⟨name, args⟩]
  words := []
  phase := .between

/-- A character between two words. -/
def start (d : Dialect) (r : Reader) (c : Char) : Reader :=
  if d.space c then { r with phase := .between }
  else if c = '#' then { r with phase := .comment }
  else if c = ';' ∨ c = '{' ∨ c = '}' then r.endStatement
  else if c = '"' ∨ c = '\'' then { r with phase := .quoted c false ⟨[], [c]⟩ }
  else if c = '\\' then { r with phase := .bare false true ⟨[], [c]⟩ }
  else { r with phase := .bare (c = '$') false ⟨[c], [c]⟩ }

def step (d : Dialect) (r : Reader) (c : Char) : Reader :=
  match r.phase with
  | .between => r.start d c
  | .comment => if c = '\n' then { r with phase := .between } else r
  | .quoted q true t => { r with phase := .quoted q false ⟨t.word ++ d.unescape c, t.raw ++ [c]⟩ }
  | .quoted q false t =>
    if c = q then r.push { t with raw := t.raw ++ [c] }
    else if c = '\\' then { r with phase := .quoted q true { t with raw := t.raw ++ [c] } }
    else { r with phase := .quoted q false ⟨t.word ++ [c], t.raw ++ [c]⟩ }
  | .bare _ true t => { r with phase := .bare false false ⟨t.word ++ d.unescape c, t.raw ++ [c]⟩ }
  | .bare v false t =>
    if d.ends v c then (r.push t).start d c
    else if c = '\\' then { r with phase := .bare false true { t with raw := t.raw ++ [c] } }
    else { r with phase := .bare (c = '$') false ⟨t.word ++ [c], t.raw ++ [c]⟩ }

/-- The end of the text ends the last word and the last statement; a backslash there stands for
itself. -/
def finish (r : Reader) : List Statement :=
  let r := match r.phase with
    | .between | .comment => r
    | .quoted _ escaped t | .bare _ escaped t =>
      r.push (if escaped then { t with word := t.word ++ ['\\'] } else t)
  r.endStatement.statements

end Reader

def read (d : Dialect) (cfg : List Char) : List Statement :=
  (cfg.foldl (Reader.step d) Reader.init).finish

/-! Two dialects on one text. -/

/-- The two dialects take different ways at this character. -/
def Diverges (d e : Dialect) (p : Phase) (c : Char) : Prop :=
  match p with
  | .between => d.space c ≠ e.space c
  | .bare v false _ => d.ends v c ≠ e.ends v c ∨ d.ends v c = true ∧ d.space c ≠ e.space c
  | .comment | .quoted .. | .bare _ true _ => False

/-- The dialects split the rest of a text alike. -/
def Alike (d e : Dialect) : Reader → List Char → Prop
  | _, [] => True
  | r, c :: cfg => ¬ Diverges d e r.phase c ∧ Alike d e (r.step e c) cfg

/-- `R` relates what two dialects read of one word, `M` the same after a backslash. -/
structure Keeps (d e : Dialect) (R M : Token → Token → Prop) : Prop where
  quote : ∀ c, c ≠ '\\' → R ⟨[], [c]⟩ ⟨[], [c]⟩
  first : ∀ c, R ⟨[c], [c]⟩ ⟨[c], [c]⟩
  marked : M ⟨[], ['\\']⟩ ⟨[], ['\\']⟩
  add : ∀ {t t'} (c), R t t' → R ⟨t.word ++ [c], t.raw ++ [c]⟩ ⟨t'.word ++ [c], t'.raw ++ [c]⟩
  close : ∀ {t t'} (c), c ≠ '\\' → R t t' → R ⟨t.word, t.raw ++ [c]⟩ ⟨t'.word, t'.raw ++ [c]⟩
  mark : ∀ {t t'}, R t t' → M ⟨t.word, t.raw ++ ['\\']⟩ ⟨t'.word, t'.raw ++ ['\\']⟩
  escape : ∀ {t t'} (c), M t t' →
    R ⟨t.word ++ d.unescape c, t.raw ++ [c]⟩ ⟨t'.word ++ e.unescape c, t'.raw ++ [c]⟩
  cut : ∀ {t t'}, M t t' →
    R { t with word := t.word ++ ['\\'] } { t' with word := t'.word ++ ['\\'] }

section Simulation
variable {d e : Dialect} {R M : Token → Token → Prop}

structure StatementRel (R : Token → Token → Prop) (s s' : Statement) : Prop where
  name : R s.name s'.name
  args : List.Forall₂ R s.args s'.args

/-- The same position in the text. -/
inductive PhaseRel (R M : Token → Token → Prop) : Phase → Phase → Prop
  | between : PhaseRel R M .between .between
  | comment : PhaseRel R M .comment .comment
  | quoted {quote : Char} {t t' : Token} : quote ≠ '\\' → R t t' →
      PhaseRel R M (.quoted quote false t) (.quoted quote false t')
  | quotedEscape {quote : Char} {t t' : Token} : quote ≠ '\\' → M t t' →
      PhaseRel R M (.quoted quote true t) (.quoted quote true t')
  | bare {afterDollar : Bool} {t t' : Token} : R t t' →
      PhaseRel R M (.bare afterDollar false t) (.bare afterDollar false t')
  | bareEscape {afterDollar : Bool} {t t' : Token} : M t t' →
      PhaseRel R M (.bare afterDollar true t) (.bare afterDollar true t')

structure ReaderRel (R M : Token → Token → Prop) (r r' : Reader) : Prop where
  statements : List.Forall₂ (StatementRel R) r.statements r'.statements
  words : List.Forall₂ R r.words r'.words
  phase : PhaseRel R M r.phase r'.phase

namespace ReaderRel

variable {r r' : Reader} {t t' : Token} {c : Char}

theorem moved (h : ReaderRel R M r r') {p p' : Phase} (hp : PhaseRel R M p p') :
    ReaderRel R M { r with phase := p } { r' with phase := p' } := ⟨h.statements, h.words, hp⟩

theorem push (h : ReaderRel R M r r') (ht : R t t') : ReaderRel R M (r.push t) (r'.push t') :=
  ⟨h.statements, List.rel_append h.words (.cons ht .nil), .between⟩

theorem endStatement (h : ReaderRel R M r r') : ReaderRel R M r.endStatement r'.endStatement := by
  refine ⟨?_, .nil, .between⟩
  obtain ⟨statements, words, phase⟩ := r
  obtain ⟨statements', words', phase'⟩ := r'
  cases h.words with
  | nil => exact h.statements
  | cons hname hargs => exact List.rel_append h.statements (.cons ⟨hname, hargs⟩ .nil)

theorem start (hk : Keeps d e R M) (h : ReaderRel R M r r') (hspace : d.space c = e.space c) :
    ReaderRel R M (r.start d c) (r'.start e c) := by
  unfold Reader.start
  rw [hspace]
  split
  · exact h.moved .between
  split
  · exact h.moved .comment
  split
  · exact h.endStatement
  split
  · next hq =>
    have hne : c ≠ '\\' := by rcases hq with rfl | rfl <;> decide
    exact h.moved (.quoted hne (hk.quote c hne))
  split
  · next hc =>
    subst hc
    exact h.moved (.bareEscape hk.marked)
  · exact h.moved (.bare (hk.first c))

theorem step (hk : Keeps d e R M) (h : ReaderRel R M r r') (hc : ¬ Diverges d e r'.phase c) :
    ReaderRel R M (r.step d c) (r'.step e c) := by
  have hphase := h.phase
  unfold Reader.step
  generalize r.phase = p at hphase
  generalize r'.phase = p' at hphase hc
  cases hphase with
  | between => exact h.start hk (not_not.mp hc)
  | comment =>
    dsimp only
    split
    · exact h.moved .between
    · exact ⟨h.statements, h.words, h.phase⟩
  | quoted hq ht =>
    dsimp only
    split
    · next he => exact h.push (hk.close c (he ▸ hq) ht)
    split
    · next hb =>
      subst hb
      exact h.moved (.quotedEscape hq (hk.mark ht))
    · exact h.moved (.quoted hq (hk.add c ht))
  | quotedEscape hq hm => exact h.moved (.quoted hq (hk.escape c hm))
  | bareEscape hm => exact h.moved (.bare (hk.escape c hm))
  | bare ht =>
    obtain ⟨hends, hspace⟩ := not_or.mp hc
    rw [not_not] at hends
    dsimp only
    rw [hends] at hspace ⊢
    split
    · next he => exact (h.push ht).start hk (not_not.mp (not_and.mp hspace he))
    split
    · next hb =>
      subst hb
      exact h.moved (.bareEscape (hk.mark ht))
    · exact h.moved (.bare (hk.add c ht))

theorem finish (hk : Keeps d e R M) (h : ReaderRel R M r r') :
    List.Forall₂ (StatementRel R) r.finish r'.finish := by
  have hphase := h.phase
  unfold Reader.finish
  generalize r.phase = p at hphase
  generalize r'.phase = p' at hphase
  cases hphase with
  | between => exact h.endStatement.statements
  | comment => exact h.endStatement.statements
  | quoted _ ht => exact (h.push ht).endStatement.statements
  | quotedEscape _ hm => exact (h.push (hk.cut hm)).endStatement.statements
  | bare ht => exact (h.push ht).endStatement.statements
  | bareEscape hm => exact (h.push (hk.cut hm)).endStatement.statements

theorem foldl (hk : Keeps d e R M) {cfg : List Char} (h : ReaderRel R M r r')
    (ha : Alike d e r' cfg) :
    ReaderRel R M (cfg.foldl (Reader.step d) r) (cfg.foldl (Reader.step e) r') := by
  induction cfg generalizing r r' with
  | nil => exact h
  | cons c cfg ih => exact ih (h.step hk ha.1) ha.2

theorem init : ReaderRel R M .init .init := ⟨.nil, .nil, .between⟩

end ReaderRel

/-- What each step keeps of the words, the reading of a text that is split alike keeps. -/
theorem read_rel (hk : Keeps d e R M) {cfg : List Char} (h : Alike d e Reader.init cfg) :
    List.Forall₂ (StatementRel R) (read d cfg) (read e cfg) := (ReaderRel.init.foldl hk h).finish hk

/-- Both relations at once. -/
theorem Keeps.and {R' M' : Token → Token → Prop} (hk : Keeps d e R M) (hk' : Keeps d e R' M') :
    Keeps d e (fun t t' => R t t' ∧ R' t t') fun t t' => M t t' ∧ M' t t' where
  quote c hc := ⟨hk.quote c hc, hk'.quote c hc⟩
  first c := ⟨hk.first c, hk'.first c⟩
  marked := ⟨hk.marked, hk'.marked⟩
  add c h := ⟨hk.add c h.1, hk'.add c h.2⟩
  close c hc h := ⟨hk.close c hc h.1, hk'.close c hc h.2⟩
  mark h := ⟨hk.mark h.1, hk'.mark h.2⟩
  escape c h := ⟨hk.escape c h.1, hk'.escape c h.2⟩
  cut h := ⟨hk.cut h.1, hk'.cut h.2⟩

theorem exists_related {α β : Type*} {S : α → β → Prop} {xs : List α} {ys : List β}
    (h : List.Forall₂ S xs ys) :
    ∀ y ∈ ys, ∃ x ∈ xs, S x y := by
  induction h with
  | nil => exact List.forall_mem_nil _
  | cons hxy _ ih =>
    intro y hy
    rcases List.mem_cons.mp hy with rfl | hy
    · exact ⟨_, List.mem_cons_self .., hxy⟩
    · obtain ⟨x, hx, hs⟩ := ih y hy
      exact ⟨x, List.mem_cons_of_mem _ hx, hs⟩

/-- A text that is not split alike has a first character where the dialects part. -/
theorem exists_diverging {r : Reader} {cfg : List Char} (h : ¬ Alike d e r cfg) :
    ∃ p c rest, cfg = p ++ c :: rest ∧ Alike d e r p ∧
    Diverges d e (p.foldl (Reader.step e) r).phase c := by
  induction cfg generalizing r with
  | nil => exact absurd trivial h
  | cons c cfg ih =>
    by_cases hc : Diverges d e r.phase c
    · exact ⟨[], c, cfg, rfl, trivial, hc⟩
    · obtain ⟨p, c', rest, rfl, hp, hd⟩ := ih fun ha => h ⟨hc, ha⟩
      exact ⟨c :: p, c', rest, rfl, ⟨hc, hp⟩, hd⟩

end Simulation

/-- Words read from the same text: without a backslash in it they are the same. -/
structure SameText (t t' : Token) : Prop where
  raw : t.raw = t'.raw
  word : '\\' ∉ t.raw → t.word = t'.word

theorem map_word_eq {ts ts' : List Token} (h : List.Forall₂ SameText ts ts')
    (hraw : ∀ t ∈ ts', '\\' ∉ t.raw) :
    ts.map Token.word = ts'.map Token.word := by
  induction h with
  | nil => rfl
  | cons ht _ ih =>
    obtain ⟨hfirst, hrest⟩ := List.forall_mem_cons.mp hraw
    rw [List.map_cons, List.map_cons, ih hrest, ht.word (ht.raw ▸ hfirst)]

theorem keeps_sameText (d e : Dialect) :
    Keeps d e SameText fun t t' => t.raw = t'.raw ∧ '\\' ∈ t.raw where
  quote _ _ := ⟨rfl, fun _ => rfl⟩
  first _ := ⟨rfl, fun _ => rfl⟩
  marked := ⟨rfl, by simp⟩
  add c h :=
    ⟨congrArg (· ++ [c]) h.raw, fun hn => congrArg (· ++ [c]) (h.word fun hm => hn (by simp [hm]))⟩
  close c _ h := ⟨congrArg (· ++ [c]) h.raw, fun hn => h.word fun hm => hn (by simp [hm])⟩
  mark h := ⟨congrArg (· ++ ['\\']) h.raw, by simp⟩
  escape c h := ⟨congrArg (· ++ [c]) h.1, fun hn => absurd (List.mem_append_left _ h.2) hn⟩
  cut h := ⟨h.1, fun hn => absurd h.2 hn⟩

end Statements
