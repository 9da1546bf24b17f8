import Mathlib.Data.List.TakeWhile
import RefScan.CommandLine.Reader

/-!
# Ways to write a call

A call says a list of items: flags, options with their values and the argument proper. There are
many ways to write each (`Spelled`): by its long or its short name, with the value in the same word
or in the next, several short names behind one hyphen. All of them read alike: the reader takes
over the items one by one (`read_spelled`), although it looks at a value in a word of its own only
when it comes to the next item.
-/

namespace RefScan.CommandLine

inductive Item where
  | flag (f : Flag)
  | setting (s : Setting) (text : String)
  | argument (text : String)
deriving DecidableEq

def Flag.long : Flag → String
  | .help => "help"
  | .verbose => "verbose"
  | .recursive => "recursive"
  | .json => "json"

def Flag.short? : Flag → Option Char
  | .help => some 'h'
  | .verbose => some 'v'
  | .recursive => some 'r'
  | .json => none

def Setting.long : Setting → String
  | .config => "config"
  | .classPath => "classpath"
  | .encoding => "encoding"
  | .exclude => "exclude"
  | .depth => "depth"

def Setting.short? : Setting → Option Char
  | .config => some 'c'
  | .classPath => some 'p'
  | .encoding => some 'e'
  | .exclude => some 'x'
  | .depth => none

/-- Not empty, and nothing that begins like an option or its attached value. -/
def isPlain (text : String) : Bool := text.toList.head?.any fun c => c != '-' && c != '='

/-- Whether an item has a place after a subcommand, or before it. Where help is asked for, nothing
else is read. -/
def Level.admits (level : Level) : Item → Bool
  | .flag f => level.knows (.flag f) && f != .help
  | .setting s text => level.knows (.setting s) && isPlain text
  | .argument text => level.takesArgument && isPlain text

/-- Short names behind one hyphen: flags, at the end perhaps an option. Its value is what is left
of the word, or the word that follows. -/
inductive Cluster : List Item → List Char → Option String → Prop
  | last {f : Flag} {c : Char} (name : f.short? = some c) : Cluster [.flag f] [c] none
  | flag {f : Flag} {c : Char} {items : List Item} {cs : List Char} {next : Option String}
      (name : f.short? = some c) (rest : Cluster items cs next) :
      Cluster (.flag f :: items) (c :: cs) next
  | attached {s : Setting} {c : Char} (name : s.short? = some c) (text : String) :
      Cluster [.setting s text] (c :: text.toList) none
  | equals {s : Setting} {c : Char} (name : s.short? = some c) (text : String) :
      Cluster [.setting s text] (c :: '=' :: text.toList) none
  | apart {s : Setting} {c : Char} (name : s.short? = some c) (text : String) :
      Cluster [.setting s text] [c] (some text)

/-- A word that begins with a hyphen says some items, or it does so with the word behind it. -/
inductive OptionWord : List Item → String → Option String → Prop
  | flag (f : Flag) : OptionWord [.flag f] ("--" ++ f.long) none
  | equals (s : Setting) (text : String) :
      OptionWord [.setting s text] ("--" ++ (s.long ++ "=" ++ text)) none
  | apart (s : Setting) (text : String) :
      OptionWord [.setting s text] ("--" ++ s.long) (some text)
  | cluster {items : List Item} {cs : List Char} {value : Option String}
      (names : Cluster items cs value) : OptionWord items ("-" ++ String.ofList cs) value

inductive Spelled : List Item → List String → Prop
  | nil : Spelled [] []
  | argument (text : String) {items : List Item} {words : List String}
      (rest : Spelled items words) : Spelled (.argument text :: items) (text :: words)
  | option {now items : List Item} {w : String} {value : Option String} {words : List String}
      (word : OptionWord now w value) (rest : Spelled items words) :
      Spelled (now ++ items) (w :: (value.toList ++ words))

namespace Given

def take (g : Given) : Item → Result Given
  | .flag f => g.raise f
  | .setting s text => g.set s text
  | .argument text =>
    if g.argument.isSome then .error .unknownArgument
    else .ok { g with argument := some text }

def takeAll (g : Given) (items : List Item) : Result Given := items.foldlM take g

end Given

/-- `g` has been read as soon as what is pending is checked. -/
structure Reading.Says (level : Level) (r : Reading) (g : Given) : Prop where
  settle : r.settle level = .ok { r with given := g, pending := .nothing }
  hasArgument : r.hasArgument = g.argument.isSome
  onlyArguments : r.onlyArguments = false

variable {level : Level} {r : Reading} {g g' : Given} {s : Setting} {f : Flag} {text : String}

-- ---------------------------------------------------------------------------
-- Results
-- ---------------------------------------------------------------------------

theorem bind_eq_ok {x : Result α} {k : α → Result β} :
    x >>= k = .ok b ↔ ∃ a, x = .ok a ∧ k a = .ok b := by
  cases x <;> simp [bind, Except.bind]

theorem ok_bind (a : α) (k : α → Result β) : (.ok a : Result α) >>= k = k a := rfl

-- ---------------------------------------------------------------------------
-- Names
-- ---------------------------------------------------------------------------

theorem ofLong?_flag (f : Flag) : Switch.ofLong? f.long = some (.flag f) := by
  cases f <;> rfl

theorem ofLong?_setting (s : Setting) : Switch.ofLong? s.long = some (.setting s) := by
  cases s <;> rfl

theorem ofShort?_flag (h : f.short? = some c) : Switch.ofShort? c = some (.flag f) := by
  cases f <;> cases h <;> rfl

theorem ofShort?_setting (h : s.short? = some c) : Switch.ofShort? c = some (.setting s) := by
  cases s <;> cases h <;> rfl

theorem ofShort?_hyphen : Switch.ofShort? '-' = none := rfl

theorem equals_not_mem_flag (f : Flag) : '=' ∉ f.long.toList := by
  cases f <;> decide

theorem equals_not_mem_setting (s : Setting) : '=' ∉ s.long.toList := by
  cases s <;> decide

theorem exists_of_isPlain (h : isPlain text = true) :
    ∃ c cs, text.toList = c :: cs ∧ c ≠ '-' ∧ c ≠ '=' := by
  unfold isPlain at h
  cases hcs : text.toList with
  | nil => simp [hcs] at h
  | cons c cs => exact ⟨c, cs, rfl, by simpa [hcs] using h⟩

theorem isEmpty_of_isPlain (h : isPlain text = true) : text.isEmpty = false := by
  obtain ⟨c, cs, hcs, -⟩ := exists_of_isPlain h
  rw [String.isEmpty_eq_false_iff, ne_eq, ← String.toList_eq_nil_iff, hcs]
  simp

theorem Level.admits_flag (h : level.admits (.flag f) = true) :
    level.knows (.flag f) = true ∧ f ≠ .help := by
  simpa [admits] using h

theorem Level.admits_setting (h : level.admits (.setting s text) = true) :
    level.knows (.setting s) = true ∧ isPlain text = true := by
  simpa [admits] using h

theorem Level.admits_argument (h : level.admits (.argument text) = true) :
    level.takesArgument = true ∧ isPlain text = true := by
  simpa [admits] using h

-- ---------------------------------------------------------------------------
-- Items
-- ---------------------------------------------------------------------------

theorem Given.argument_raise (h : g.raise f = .ok g') : g'.argument = g.argument := by
  unfold raise at h
  cases f <;> simp only at h <;> (try split at h) <;> cases h <;> rfl

theorem Given.argument_set (h : g.set s text = .ok g') : g'.argument = g.argument := by
  unfold set at h
  cases s <;> simp only at h <;> (repeat' split at h) <;> cases h <;> rfl

namespace Reading.Says

theorem of_nothing (harg : r.hasArgument = r.given.argument.isSome)
    (honly : r.onlyArguments = false) (h : r.pending = .nothing) : r.Says level r.given where
  settle := by
    obtain ⟨given, pending, _, _⟩ := r
    subst h
    rfl
  hasArgument := harg
  onlyArguments := honly

theorem not_awaiting (h : r.Says level g) (s : Setting) : r.pending ≠ .awaiting s := by
  intro hp
  have hsettle := h.settle
  rw [Reading.settle, hp] at hsettle
  cases hsettle

theorem flag (h : r.Says level g) (hg : g.raise f = .ok g') :
    ∃ r', r.flag level f = .ok r' ∧ r'.Says level g' := by
  refine ⟨{ r with given := g', pending := .nothing }, ?_, of_nothing ?_ h.onlyArguments rfl⟩
  · simp only [Reading.flag, h.settle, ok_bind, hg]
  · rw [h.hasArgument, Given.argument_raise hg]

theorem attached (h : r.Says level g) (hg : g.set s text = .ok g') :
    ∃ r', r.attached level s text = .ok r' ∧ r'.Says level g' := by
  refine ⟨{ r with given := g', pending := .nothing }, ?_, of_nothing ?_ h.onlyArguments rfl⟩
  · simp only [Reading.attached, h.settle, ok_bind, hg]
  · rw [h.hasArgument, Given.argument_set hg]

end Reading.Says

/-- With the word `text`, which is the value awaited, `g` has been read. -/
structure Reading.Awaits (level : Level) (r : Reading) (text : String) (g : Given) : Prop where
  pending : ∃ s, r.pending = .awaiting s
  onlyArguments : r.onlyArguments = false
  word : ∃ r', r.word level text = .ok r' ∧ r'.Says level g

def Reading.SaysWith (level : Level) (r : Reading) : Option String → Given → Prop
  | none, g => r.Says level g
  | some text, g => r.Awaits level text g

theorem Given.takeAll_cons {i : Item} {items : List Item} :
    g.takeAll (i :: items) = .ok g' ↔ ∃ g₁, g.take i = .ok g₁ ∧ g₁.takeAll items = .ok g' := by
  rw [takeAll, List.foldlM_cons, bind_eq_ok]
  rfl

theorem Given.takeAll_append {a b : List Item} :
    g.takeAll (a ++ b) = .ok g' ↔ ∃ g₁, g.takeAll a = .ok g₁ ∧ g₁.takeAll b = .ok g' := by
  rw [takeAll, List.foldlM_append, bind_eq_ok]
  rfl

theorem Given.takeAll_singleton {i : Item} (h : g.takeAll [i] = .ok g') : g.take i = .ok g' := by
  obtain ⟨g₁, hi, hnil⟩ := takeAll_cons.mp h
  cases hnil
  exact hi

theorem Cluster.exists_cons (h : Cluster items cs value) : ∃ c rest, cs = c :: rest ∧ c ≠ '-' := by
  have hflag {f : Flag} {c : Char} (hname : f.short? = some c) : c ≠ '-' := by
    rintro rfl
    cases ofShort?_hyphen.symm.trans (ofShort?_flag hname)
  have hsetting {s : Setting} {c : Char} (hname : s.short? = some c) : c ≠ '-' := by
    rintro rfl
    cases ofShort?_hyphen.symm.trans (ofShort?_setting hname)
  cases h with
  | last name => exact ⟨_, _, rfl, hflag name⟩
  | flag name _ => exact ⟨_, _, rfl, hflag name⟩
  | attached name text => exact ⟨_, _, rfl, hsetting name⟩
  | equals name text => exact ⟨_, _, rfl, hsetting name⟩
  | apart name text => exact ⟨_, _, rfl, hsetting name⟩

theorem OptionWord.hyphen (h : OptionWord items w value) : w.toList.head? = some '-' := by
  cases h <;> simp

-- ---------------------------------------------------------------------------
-- Words
-- ---------------------------------------------------------------------------

namespace Reading

variable {w : String} {c : Char} {cs : List Char}

theorem word_long (honly : r.onlyArguments = false) (hne : w.toList ≠ []) :
    r.word level ("--" ++ w) = r.long level w.toList := by
  obtain ⟨c, cs, hcs⟩ := List.exists_cons_of_ne_nil hne
  simp [word, honly, hcs]

theorem word_cluster (honly : r.onlyArguments = false) (hc : c ≠ '-') :
    r.word level ("-" ++ String.ofList (c :: cs)) = r.cluster level (c :: cs) := by
  simp [word, honly, hc]

theorem word_value (honly : r.onlyArguments = false) (hp : r.pending = .awaiting s)
    (hw : isPlain w = true) : r.word level w = .ok { r with pending := .value s w } := by
  obtain ⟨c, cs, hcs, hc, -⟩ := exists_of_isPlain hw
  simp [word, honly, hcs, hc, hp]

theorem word_plain (honly : r.onlyArguments = false) (hp : ∀ s, r.pending ≠ .awaiting s)
    (hw : isPlain w = true) : r.word level w = r.plain level w := by
  obtain ⟨c, cs, hcs, hc, -⟩ := exists_of_isPlain hw
  cases hpending : r.pending with
  | awaiting s => exact absurd hpending (hp s)
  | _ => simp [word, honly, hcs, hc, hpending]

theorem takeWhile_name {name : List Char} (h : '=' ∉ name) (rest : List Char) :
    (name ++ '=' :: rest).takeWhile (· != '=') = name ∧ name.takeWhile (· != '=') = name := by
  have hall : ∀ c ∈ name, (c != '=') = true := fun c hc => by
    rw [bne_iff_ne]
    rintro rfl
    exact h hc
  constructor
  · rw [List.takeWhile_append_of_pos hall]
    simp
  · exact List.takeWhile_eq_self_iff.mpr hall

theorem long_flag (h : level.knows (.flag f) = true) :
    r.long level f.long.toList = r.flag level f := by
  have hname : level.long? f.long = some (.flag f) := by
    simp [Level.long?, ofLong?_flag, h]
  simp [long, (takeWhile_name (equals_not_mem_flag f) []).2, hname]

theorem long_await (h : level.knows (.setting s) = true) :
    r.long level s.long.toList = r.await level s := by
  have hname : level.long? s.long = some (.setting s) := by
    simp [Level.long?, ofLong?_setting, h]
  simp [long, (takeWhile_name (equals_not_mem_setting s) []).2, hname]

theorem long_attached (h : level.knows (.setting s) = true) (text : String) :
    r.long level (s.long.toList ++ '=' :: text.toList) = r.attached level s text := by
  have hname : level.long? s.long = some (.setting s) := by
    simp [Level.long?, ofLong?_setting, h]
  simp [long, (takeWhile_name (equals_not_mem_setting s) text.toList).1, hname]

theorem cluster_flag (h : level.knows (.flag f) = true) (hname : f.short? = some c) :
    r.cluster level (c :: cs) = r.flag level f >>= fun r => r.cluster level cs := by
  have hshort : level.short? c = some (.flag f) := by
    simp [Level.short?, ofShort?_flag hname, h]
  simp only [cluster, hshort]

theorem cluster_await (h : level.knows (.setting s) = true) (hname : s.short? = some c) :
    r.cluster level [c] = r.await level s := by
  have hshort : level.short? c = some (.setting s) := by
    simp [Level.short?, ofShort?_setting hname, h]
  simp only [cluster, hshort]

theorem cluster_attached (h : level.knows (.setting s) = true) (hname : s.short? = some c)
    (htext : isPlain text = true) :
    r.cluster level (c :: text.toList) = r.attached level s text ∧
      r.cluster level (c :: '=' :: text.toList) = r.attached level s text := by
  have hshort : level.short? c = some (.setting s) := by
    simp [Level.short?, ofShort?_setting hname, h]
  obtain ⟨d, cs, hcs, -, hd⟩ := exists_of_isPlain htext
  have hback : String.ofList (d :: cs) = text := by rw [← hcs, String.ofList_toList]
  constructor
  · rw [hcs]
    simp [cluster, hshort, hd, hback]
  · simp only [cluster, hshort, String.ofList_toList]

namespace Says

theorem await (h : r.Says level g) (hg : g.set s text = .ok g') (htext : isPlain text = true) :
    ∃ r', r.await level s = .ok r' ∧ r'.Awaits level text g' := by
  let waiting : Reading := { r with given := g, pending := .awaiting s }
  refine ⟨waiting, ?_, ⟨s, rfl⟩, h.onlyArguments, { waiting with pending := .value s text }, ?_, ?_⟩
  · simp only [Reading.await, h.settle, ok_bind]
    rfl
  · exact word_value h.onlyArguments rfl htext
  · constructor
    case settle =>
      show (do .ok { waiting with given := ← g.set s text, pending := .nothing } : Result _) = _
      rw [hg]
      rfl
    case hasArgument =>
      show r.hasArgument = _
      rw [h.hasArgument, Given.argument_set hg]
    case onlyArguments => exact h.onlyArguments

theorem argument (h : r.Says level g) (hlevel : level.takesArgument = true)
    (hg : g.take (.argument text) = .ok g') (htext : isPlain text = true) :
    ∃ r', r.word level text = .ok r' ∧ r'.Says level g' := by
  have hfree : g.argument.isSome = false := by
    cases harg : g.argument.isSome with
    | false => rfl
    | true => simp [Given.take, harg] at hg
  have hg' : { g with argument := some text } = g' := by
    simpa [Given.take, hfree] using hg
  subst hg'
  refine ⟨{ r with given := g, pending := .argument text, hasArgument := true }, ?_, ?_, rfl,
    h.onlyArguments⟩
  · rw [word_plain h.onlyArguments h.not_awaiting htext]
    simp [plain, hlevel, h.hasArgument, hfree, h.settle, ok_bind]
  · simp [Reading.settle, isEmpty_of_isPlain htext]

theorem cluster (h : r.Says level g) (hc : Cluster items cs next)
    (hadmits : ∀ i ∈ items, level.admits i = true) (hg : g.takeAll items = .ok g') :
    ∃ r', r.cluster level cs = .ok r' ∧ r'.SaysWith level next g' := by
  induction hc generalizing r g with
  | last name =>
    obtain ⟨hknows, -⟩ := Level.admits_flag (hadmits _ List.mem_cons_self)
    obtain ⟨r', hr', hsays⟩ := h.flag (Given.takeAll_singleton hg)
    refine ⟨r', ?_, hsays⟩
    rw [cluster_flag hknows name, hr']
    rfl
  | flag name rest ih =>
    obtain ⟨hknows, -⟩ := Level.admits_flag (hadmits _ List.mem_cons_self)
    obtain ⟨g₁, hflag, hrest⟩ := Given.takeAll_cons.mp hg
    obtain ⟨r₁, hr₁, hsays₁⟩ := h.flag hflag
    obtain ⟨r', hr', hsays⟩ :=
      ih hsays₁ (fun i hi => hadmits i (List.mem_cons_of_mem _ hi)) hrest
    refine ⟨r', ?_, hsays⟩
    rw [cluster_flag hknows name, hr₁, ok_bind, hr']
  | attached name text =>
    obtain ⟨hknows, htext⟩ := Level.admits_setting (hadmits _ List.mem_cons_self)
    obtain ⟨r', hr', hsays⟩ := h.attached (Given.takeAll_singleton hg)
    exact ⟨r', (cluster_attached hknows name htext).1.trans hr', hsays⟩
  | equals name text =>
    obtain ⟨hknows, htext⟩ := Level.admits_setting (hadmits _ List.mem_cons_self)
    obtain ⟨r', hr', hsays⟩ := h.attached (Given.takeAll_singleton hg)
    exact ⟨r', (cluster_attached hknows name htext).2.trans hr', hsays⟩
  | apart name text =>
    obtain ⟨hknows, htext⟩ := Level.admits_setting (hadmits _ List.mem_cons_self)
    obtain ⟨r', hr', hawaits⟩ := h.await (Given.takeAll_singleton hg) htext
    exact ⟨r', (cluster_await hknows name).trans hr', hawaits⟩

theorem option (h : r.Says level g) (hw : OptionWord items w value)
    (hadmits : ∀ i ∈ items, level.admits i = true) (hg : g.takeAll items = .ok g') :
    ∃ r', r.word level w = .ok r' ∧ r'.SaysWith level value g' := by
  cases hw with
  | flag f =>
    obtain ⟨hknows, -⟩ := Level.admits_flag (hadmits _ List.mem_cons_self)
    obtain ⟨r', hr', hsays⟩ := h.flag (Given.takeAll_singleton hg)
    refine ⟨r', ?_, hsays⟩
    rw [word_long h.onlyArguments (by cases f <;> simp [Flag.long]), long_flag hknows, hr']
  | equals s text =>
    obtain ⟨hknows, -⟩ := Level.admits_setting (hadmits _ List.mem_cons_self)
    obtain ⟨r', hr', hsays⟩ := h.attached (Given.takeAll_singleton hg)
    have hcs : (s.long ++ "=" ++ text).toList = s.long.toList ++ '=' :: text.toList := by simp
    refine ⟨r', ?_, hsays⟩
    rw [word_long h.onlyArguments (by simp), hcs, long_attached hknows, hr']
  | apart s text =>
    obtain ⟨hknows, htext⟩ := Level.admits_setting (hadmits _ List.mem_cons_self)
    obtain ⟨r', hr', hawaits⟩ := h.await (Given.takeAll_singleton hg) htext
    refine ⟨r', ?_, hawaits⟩
    rw [word_long h.onlyArguments (by cases s <;> simp [Setting.long]), long_await hknows, hr']
  | cluster names =>
    obtain ⟨r', hr', hsays⟩ := h.cluster names hadmits hg
    obtain ⟨c, cs, rfl, hc⟩ := names.exists_cons
    exact ⟨r', (word_cluster h.onlyArguments hc).trans hr', hsays⟩

end Says

end Reading

-- ---------------------------------------------------------------------------
-- All words
-- ---------------------------------------------------------------------------

/-- `next` goes on by `Reading.word` wherever no subcommand can stand. -/
def Follows (level : Level) (next : Reading → List String → Result α) : Prop :=
  ∀ {r r' : Reading} {w : String} (ws : List String), r.onlyArguments = false →
    (level.takesArgument = true ∨ w.toList.head? = some '-' ∨ ∃ s, r.pending = .awaiting s) →
    r.word level w = .ok r' → next r (w :: ws) = next r' ws

theorem follows_readArguments (level : Level) : Follows level (readArguments level) := by
  intro r r' w ws _ _ hw
  rw [readArguments, hw, ok_bind]

theorem follows_readTop : Follows .top readTop := by
  intro r r' w ws honly hplace hw
  rcases hplace with h | hhyphen | ⟨s, hs⟩
  · cases h
  · -- no name of a subcommand begins with a hyphen
    have hhelp : w ≠ "help" := by
      rintro rfl
      simp at hhyphen
    have hname : Level.ofName? w = none := by
      unfold Level.ofName?
      split <;> simp_all
    simp [readTop, hhelp, hname, hw, ok_bind]
  · have hno : r.allowsSubcommand = false := by
      simp [Reading.allowsSubcommand, hs]
    simp [readTop, hno, hw, ok_bind]

variable {next : Reading → List String → Result α} {items : List Item} {words : List String}

/-- The word that follows an option is its value if there is one to come. -/
theorem Follows.option (hnext : Follows level next) (honly : r.onlyArguments = false)
    {w : String} {r₁ : Reading} {value : Option String} (hhyphen : w.toList.head? = some '-')
    (hw : r.word level w = .ok r₁) (h : r₁.SaysWith level value g) (rest : List String) :
    ∃ r', r'.Says level g ∧ next r (w :: (value.toList ++ rest)) = next r' rest := by
  have hstep := hnext (value.toList ++ rest) honly (.inr (.inl hhyphen)) hw
  cases value with
  | none => exact ⟨r₁, h, hstep⟩
  | some text =>
    obtain ⟨r', hr', hsays⟩ := h.word
    refine ⟨r', hsays, hstep.trans ?_⟩
    exact hnext rest h.onlyArguments (.inr (.inr h.pending)) hr'

/-- However the items are written, they are taken over in their order. -/
theorem read_spelled (hnext : Follows level next) (h : Spelled items words)
    (hadmits : ∀ i ∈ items, level.admits i = true) (hr : r.Says level g)
    (hg : g.takeAll items = .ok g') (rest : List String) :
    ∃ r', r'.Says level g' ∧ next r (words ++ rest) = next r' rest := by
  induction h generalizing r g with
  | nil =>
    cases hg
    exact ⟨r, hr, rfl⟩
  | argument text _ ih =>
    obtain ⟨hlevel, htext⟩ := Level.admits_argument (hadmits _ List.mem_cons_self)
    obtain ⟨g₁, htake, hrest⟩ := Given.takeAll_cons.mp hg
    obtain ⟨r₁, hr₁, hsays₁⟩ := hr.argument hlevel htake htext
    obtain ⟨r', hsays, heq⟩ := ih (fun i hi => hadmits i (List.mem_cons_of_mem _ hi)) hsays₁ hrest
    exact ⟨r', hsays, (hnext _ hr.onlyArguments (.inl hlevel) hr₁).trans heq⟩
  | option word _ ih =>
    obtain ⟨g₁, htake, hrest⟩ := Given.takeAll_append.mp hg
    obtain ⟨r₁, hr₁, hsays₁⟩ :=
      hr.option word (fun i hi => hadmits i (List.mem_append_left _ hi)) htake
    obtain ⟨r₂, hsays₂, heq₂⟩ := hnext.option hr.onlyArguments word.hyphen hr₁ hsays₁ _
    obtain ⟨r', hsays, heq⟩ := ih (fun i hi => hadmits i (List.mem_append_right _ hi)) hsays₂ hrest
    refine ⟨r', hsays, Eq.trans ?_ (heq₂.trans heq)⟩
    rw [List.cons_append, List.append_assoc]

end RefScan.CommandLine
