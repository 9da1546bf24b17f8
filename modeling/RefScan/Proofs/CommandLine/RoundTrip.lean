import Mathlib.Data.List.Perm.Basic
import RefScan.Proofs.CommandLine.Spelling

/-!
# Command lines read back

`Writes line words` holds of every call for a command line: the configuration file and the
verbosity come before the subcommand, its argument and options behind it in any order, with
repeated values in theirs, and each is written in any of its ways. There is such a call for every
command line (`exists_writes`), and reading it gives the command line (`read_written`). What counts
is not the order but what the items say as a whole (`Given.Holds`), which is kept up item by item
and leaves only one value at the end.
-/

namespace RefScan

namespace Command

def name : Command → String
  | scan .. => "scan"
  | graph .. => "graph"
  | all .. => "all"
  | candidates .. => "candidates"

def level : Command → CommandLine.Level
  | scan .. => .scan
  | graph .. => .graph
  | all .. => .all
  | candidates .. => .candidates

def argument? : Command → Option String
  | scan type _ => some type
  | graph type _ => some type
  | all _ => none
  | candidates file _ _ => some file

def arguments : Command → ScanArguments
  | scan _ a => a
  | graph _ a => a
  | all a => a
  | candidates _ encoding json => { encoding, json }

end Command

namespace CommandLine

@[simp] def Item.value? (s : Setting) : Item → Option String
  | .setting s' text => if s' = s then some text else none
  | _ => none

@[simp] def Item.argument? : Item → Option String
  | .argument text => some text
  | _ => none

def values (s : Setting) (items : List Item) : List String := items.filterMap (Item.value? s)

/-- `n` in decimal digits, with zeros and a plus sign in front or not. -/
def IsNumeral (n : Nat) (text : String) : Prop :=
  ∃ sign zeros, (sign = [] ∨ sign = ['+']) ∧
    text.toList = sign ++ (List.replicate zeros '0' ++ Nat.toDigits 10 n)

def topItems (line : CommandLine) : List Item :=
  .setting .config line.config :: List.replicate line.verbosity (.flag .verbose)

def argumentItems (a : ScanArguments) (numeral : Nat → String) : List Item :=
  a.classPath.map (.setting .classPath) ++ a.exclude.map (.setting .exclude) ++
    a.encoding.toList.map (.setting .encoding) ++
    (a.depth.map numeral).toList.map (.setting .depth) ++
    List.replicate a.recursive.toNat (.flag .recursive) ++
    List.replicate a.json.toNat (.flag .json)

def commandItems (c : Command) (numeral : Nat → String) : List Item :=
  c.argument?.toList.map .argument ++ argumentItems c.arguments numeral

/-- The ways to write a command line in words. -/
inductive Writes (line : CommandLine) : List String → Prop
  | intro {top sub : List Item} {topWords subWords : List String} (numeral : Nat → String)
      (isNumeral : ∀ n, IsNumeral n (numeral n))
      (before : top.Perm (topItems line))
      (behind : sub.Perm (commandItems line.command numeral))
      (classPath : values .classPath sub = line.command.arguments.classPath)
      (exclude : values .exclude sub = line.command.arguments.exclude)
      (topSpelled : Spelled top topWords) (subSpelled : Spelled sub subWords) :
      Writes line (topWords ++ line.command.name :: subWords)

/-- All strings are plain and all numbers are in range. -/
structure Writable (line : CommandLine) : Prop where
  config : isPlain line.config = true
  verbosity : line.verbosity ≤ maxVerbosity
  argument : ∀ text ∈ line.command.argument?, isPlain text = true
  classPath : ∀ text ∈ line.command.arguments.classPath, isPlain text = true
  exclude : ∀ text ∈ line.command.arguments.exclude, isPlain text = true
  encoding : ∀ text ∈ line.command.arguments.encoding, isPlain text = true
  depth : ∀ n ∈ line.command.arguments.depth, n < UInt64.size

-- ---------------------------------------------------------------------------
-- Numerals
-- ---------------------------------------------------------------------------

theorem IsNumeral.exists_digits (h : IsNumeral n text) :
    ∃ digits, digits ≠ [] ∧ (∀ c ∈ digits, c.isDigit = true) ∧
      Nat.ofDigitChars 10 digits 0 = n ∧ (text.toList = digits ∨ text.toList = '+' :: digits) := by
  obtain ⟨sign, zeros, hsign, htext⟩ := h
  refine ⟨List.replicate zeros '0' ++ Nat.toDigits 10 n, by simp, fun c hc => ?_, ?_, ?_⟩
  · rcases List.mem_append.mp hc with hc | hc
    · rw [List.eq_of_mem_replicate hc]
      rfl
    · exact Nat.isDigit_of_mem_toDigits (by decide) (by decide) hc
  · simp [Nat.ofDigitChars_append, Nat.ofDigitChars_replicate_zero]
  · rcases hsign with rfl | rfl
    · exact .inl htext
    · exact .inr htext

theorem depth?_of_isNumeral (h : IsNumeral n text) (hn : n < UInt64.size) :
    depth? text = some n := by
  obtain ⟨digits, hne, hdigits, rfl, htext⟩ := h.exists_digits
  have hvalue : digits.foldl (fun n c => n * 10 + (c.toNat - '0'.toNat)) 0 =
      Nat.ofDigitChars 10 digits 0 := by
    simp only [Nat.ofDigitChars_eq_foldl, Nat.mul_comm]
  have hguard : (digits.isEmpty || !digits.all Char.isDigit) = false := by
    simpa using ⟨hne, hdigits⟩
  unfold depth?
  rcases htext with h | h
  · rw [h]
    split
    · cases hdigits '+' List.mem_cons_self
    · simp only [hguard, hvalue, if_pos hn]
      rfl
  · simp only [h, hguard, hvalue, if_pos hn]
    rfl

theorem isPlain_of_isNumeral (h : IsNumeral n text) : isPlain text = true := by
  obtain ⟨digits, hne, hdigits, -, htext⟩ := h.exists_digits
  rcases htext with h | h
  · obtain ⟨c, cs, rfl⟩ := List.exists_cons_of_ne_nil hne
    have hdigit := hdigits c List.mem_cons_self
    have hhyphen : c ≠ '-' := by
      rintro rfl
      cases hdigit
    have hequals : c ≠ '=' := by
      rintro rfl
      cases hdigit
    simp [isPlain, h, hhyphen, hequals]
  · simp [isPlain, h]

-- ---------------------------------------------------------------------------
-- What items say
-- ---------------------------------------------------------------------------

def verbosity? : Nat → Option Nat
  | 0 => none
  | n + 1 => some (min (n + 1) maxVerbosity)

/-- `g` is what the items say: repeated values in their order, all others at most once. -/
structure Given.Holds (items : List Item) (g : Given) : Prop where
  verbose : g.verbose = verbosity? (items.count (.flag .verbose))
  config : g.config.toList = values .config items
  argument : g.argument.toList = items.filterMap Item.argument?
  classPath : g.arguments.classPath = values .classPath items
  exclude : g.arguments.exclude = values .exclude items
  encoding : g.arguments.encoding.toList = values .encoding items
  depth : (g.arguments.depth.map some).toList = (values .depth items).map depth?
  recursive : g.arguments.recursive.toNat = items.count (.flag .recursive)
  json : g.arguments.json.toNat = items.count (.flag .json)

variable {items items' done rest : List Item} {i : Item} {g g' target : Given} {f : Flag}
  {s : Setting} {text : String} {level : Level} {line : CommandLine} {numeral : Nat → String}
  {ws : List String}

theorem verbosity?_succ (n : Nat) :
    verbosity? (n + 1) = some (min ((verbosity? n).getD 0 + 1) maxVerbosity) := by
  cases n with
  | zero => rfl
  | succ n =>
    simp only [verbosity?, Option.getD_some, maxVerbosity]
    congr 1
    omega

theorem Given.Holds.unique (h : g.Holds items) (h' : g'.Holds items) : g = g' := by
  have hoption {α : Type} {a b : Option α} (h : a.toList = b.toList) : a = b := by
    cases a <;> cases b <;> simp_all
  have hbool {a b : Bool} (h : a.toNat = b.toNat) : a = b := by
    cases a <;> cases b <;> simp_all
  obtain ⟨verbose, config, ⟨classPath, recursive, encoding, exclude, depth, json⟩, argument⟩ := g
  obtain ⟨v, c, ⟨p, r, e, x, d, j⟩, a⟩ := g'
  have hdepth := Option.map_injective (fun _ _ => Option.some.inj)
    (hoption (h.depth.trans h'.depth.symm))
  simp only [Given.mk.injEq, ScanArguments.mk.injEq]
  exact ⟨h.verbose.trans h'.verbose.symm, hoption (h.config.trans h'.config.symm),
    ⟨h.classPath.trans h'.classPath.symm, hbool (h.recursive.trans h'.recursive.symm),
      hoption (h.encoding.trans h'.encoding.symm), h.exclude.trans h'.exclude.symm,
      hdepth, hbool (h.json.trans h'.json.symm)⟩,
    hoption (h.argument.trans h'.argument.symm)⟩

@[simp] theorem values_nil (s : Setting) : values s [] = [] := rfl

@[simp] theorem values_cons (s : Setting) (i : Item) (items : List Item) :
    values s (i :: items) = (i.value? s).toList ++ values s items := by
  rw [values, List.filterMap_cons, values]
  cases i.value? s <;> rfl

@[simp] theorem values_append (s : Setting) (a b : List Item) :
    values s (a ++ b) = values s a ++ values s b := List.filterMap_append

theorem false_of_once {b t : Bool} {m n : Nat} (hb : b.toNat = m) (ht : t.toNat = m + (n + 1)) :
    b = false ∧ m = 0 := by
  have hle := t.toNat_le
  have hm : m = 0 := by omega
  exact ⟨Bool.toNat_eq_zero.mp (hb.trans hm), hm⟩

theorem none_of_once {o t : Option α} {l l' : List α} (ho : o.toList = l)
    (ht : t.toList = l ++ x :: l') : o = none ∧ l = [] ∧ t = some x := by
  cases t with
  | none => simp at ht
  | some y =>
    have hl : l = [] := by
      have hlen := congrArg List.length ht
      simp only [Option.toList_some, List.length_cons, List.length_nil, List.length_append] at hlen
      exact List.eq_nil_of_length_eq_zero (by omega)
    subst hl
    cases ht
    exact ⟨Option.toList_eq_nil_iff.mp ho, rfl, rfl⟩

namespace Given.Holds

-- In the steps below, that `target` holds of all items shows that the new one is the first of its
-- kind, so it is no repetition that the reader would refuse.

theorem raise_flag (hg : g.Holds done) (hall : target.Holds (done ++ .flag f :: rest))
    (hf : f ≠ .help) : ∃ g₁, g.raise f = .ok g₁ ∧ g₁.Holds (done ++ [.flag f]) := by
  obtain ⟨hv, hc, ha, hp, hx, he, hd, hr, hj⟩ := hg
  cases f with
  | help => exact absurd rfl hf
  | verbose =>
    refine ⟨_, rfl, ?_⟩
    constructor <;> simp [verbosity?_succ, *]
  | recursive =>
    have honce := hall.recursive
    rw [List.count_append, List.count_cons_self] at honce
    obtain ⟨hnone, hdone⟩ := false_of_once hr honce
    refine ⟨{ g with arguments := { g.arguments with recursive := true } }, ?_, ?_⟩
    · simp [raise, hnone]
    · constructor <;> simp [*]
  | json =>
    have honce := hall.json
    rw [List.count_append, List.count_cons_self] at honce
    obtain ⟨hnone, hdone⟩ := false_of_once hj honce
    refine ⟨{ g with arguments := { g.arguments with json := true } }, ?_, ?_⟩
    · simp [raise, hnone]
    · constructor <;> simp [*]

theorem set_setting (hg : g.Holds done) (hall : target.Holds (done ++ .setting s text :: rest))
    (htext : text.isEmpty = false) :
    ∃ g₁, g.set s text = .ok g₁ ∧ g₁.Holds (done ++ [.setting s text]) := by
  obtain ⟨hv, hc, ha, hp, hx, he, hd, hr, hj⟩ := hg
  cases s with
  | config =>
    have honce := hall.config
    rw [values_append, values_cons] at honce
    obtain ⟨hnone, hdone, -⟩ := none_of_once hc honce
    refine ⟨{ g with config := some text }, ?_, ?_⟩
    · simp [set, hnone, htext]
    · constructor <;> simp [*]
  | classPath =>
    refine ⟨_, by simp only [set, htext]; rfl, ?_⟩
    constructor <;> simp [*]
  | encoding =>
    have honce := hall.encoding
    rw [values_append, values_cons] at honce
    obtain ⟨hnone, hdone, -⟩ := none_of_once he honce
    refine ⟨{ g with arguments := { g.arguments with encoding := some text } }, ?_, ?_⟩
    · simp [set, hnone]
    · constructor <;> simp [*]
  | exclude =>
    refine ⟨_, rfl, ?_⟩
    constructor <;> simp [*]
  | depth =>
    have honce := hall.depth
    rw [values_append, values_cons, List.map_append] at honce
    obtain ⟨hnone, hdone, htarget⟩ := none_of_once hd honce
    obtain ⟨n, -, hn⟩ := Option.map_eq_some_iff.mp htarget
    replace hn := hn.symm
    refine ⟨{ g with arguments := { g.arguments with depth := some n } }, ?_, ?_⟩
    · simp [set, Option.map_eq_none_iff.mp hnone, hn]
    · constructor <;> simp [*]

theorem take_argument (hg : g.Holds done) (hall : target.Holds (done ++ .argument text :: rest)) :
    ∃ g₁, g.take (.argument text) = .ok g₁ ∧ g₁.Holds (done ++ [.argument text]) := by
  obtain ⟨hv, hc, ha, hp, hx, he, hd, hr, hj⟩ := hg
  have honce := hall.argument
  rw [List.filterMap_append, List.filterMap_cons] at honce
  obtain ⟨hnone, hdone, -⟩ := none_of_once ha honce
  refine ⟨{ g with argument := some text }, ?_, ?_⟩
  · simp [take, hnone]
  · constructor <;> simp [*]

theorem take (hg : g.Holds done) (hall : target.Holds (done ++ i :: rest))
    (hadmits : level.admits i = true) : ∃ g₁, g.take i = .ok g₁ ∧ g₁.Holds (done ++ [i]) := by
  cases i with
  | flag f => exact hg.raise_flag hall (Level.admits_flag hadmits).2
  | setting s text =>
    exact hg.set_setting hall (isEmpty_of_isPlain (Level.admits_setting hadmits).2)
  | argument text => exact hg.take_argument hall

/-- Items that say `target` as a whole are taken over without a mistake and give just that. -/
theorem takeAll (hg : g.Holds done) (hall : target.Holds (done ++ items))
    (hadmits : ∀ i ∈ items, level.admits i = true) : g.takeAll items = .ok target := by
  induction items generalizing g done with
  | nil =>
    rw [List.append_nil] at hall
    rw [hg.unique hall]
    rfl
  | cons i items ih =>
    obtain ⟨g₁, htake, hg₁⟩ := hg.take hall (hadmits i List.mem_cons_self)
    refine takeAll_cons.mpr ⟨g₁, htake, ih hg₁ ?_ ?_⟩
    · rwa [List.append_assoc]
    · exact fun j hj => hadmits j (List.mem_cons_of_mem _ hj)

theorem read {next : Reading → List String → Result α} (hnext : Follows level next)
    (hg : g.Holds items) (hadmits : ∀ i ∈ items, level.admits i = true)
    (hspelled : Spelled items words) (ws : List String) :
    ∃ r, r.Says level g ∧ next {} (words ++ ws) = next r ws := by
  have hempty : Given.Holds [] {} := by constructor <;> rfl
  exact read_spelled hnext hspelled hadmits (.of_nothing rfl rfl rfl)
    (hempty.takeAll hg hadmits) ws

/-- Only repeated values need to keep their order. -/
theorem perm (h : g.Holds items) (hp : items'.Perm items)
    (hclassPath : values .classPath items' = values .classPath items)
    (hexclude : values .exclude items' = values .exclude items) : g.Holds items' := by
  have hoption {α : Type} {o : Option α} {l l' : List α} (ho : o.toList = l) (hl : l'.Perm l) :
      o.toList = l' := by
    subst ho
    cases o with
    | none => exact (List.perm_nil.mp hl).symm
    | some x => exact (List.perm_singleton.mp hl).symm
  constructor
  case verbose => rw [h.verbose, hp.count_eq]
  case config => exact hoption h.config (hp.filterMap _)
  case argument => exact hoption h.argument (hp.filterMap _)
  case classPath => exact h.classPath.trans hclassPath.symm
  case exclude => exact h.exclude.trans hexclude.symm
  case encoding => exact hoption h.encoding (hp.filterMap _)
  case depth => exact hoption h.depth ((hp.filterMap _).map _)
  case recursive => rw [h.recursive, hp.count_eq]
  case json => rw [h.json, hp.count_eq]

end Given.Holds

-- ---------------------------------------------------------------------------
-- Command lines
-- ---------------------------------------------------------------------------

@[simp] theorem values_map_setting (s s' : Setting) (texts : List String) :
    values s (texts.map (.setting s')) = if s' = s then texts else [] := by
  induction texts with
  | nil => simp
  | cons text texts ih => by_cases h : s' = s <;> simp_all

@[simp] theorem values_map_argument (s : Setting) (texts : List String) :
    values s (texts.map .argument) = [] := by
  simp [values]

@[simp] theorem values_replicate_flag (s : Setting) (n : Nat) (f : Flag) :
    values s (List.replicate n (.flag f)) = [] := by
  simp [values]

@[simp] theorem count_map_setting (f : Flag) (s : Setting) (texts : List String) :
    (texts.map (Item.setting s)).count (.flag f) = 0 := by
  simp [List.count_eq_zero]

@[simp] theorem count_map_argument (f : Flag) (texts : List String) :
    (texts.map Item.argument).count (.flag f) = 0 := by
  simp [List.count_eq_zero]

theorem holds_commandItems (c : Command) (numeral : Nat → String)
    (hnumeral : ∀ n ∈ c.arguments.depth, depth? (numeral n) = some n) :
    Given.Holds (commandItems c numeral)
      { arguments := c.arguments, argument := c.argument? } := by
  constructor
  case depth =>
    cases hdepth : c.arguments.depth with
    | none => simp [commandItems, argumentItems, hdepth]
    | some n => simp [commandItems, argumentItems, hdepth, hnumeral n hdepth]
  all_goals simp [commandItems, argumentItems, Function.comp_def, List.filterMap_replicate,
    List.count_replicate, verbosity?]

theorem holds_topItems (line : CommandLine) :
    Given.Holds (topItems line)
      { verbose := verbosity? line.verbosity, config := some line.config } := by
  constructor <;> simp [topItems, List.count_replicate]

theorem admits_topItems (h : line.Writable) : ∀ i ∈ topItems line, Level.top.admits i = true := by
  intro i hi
  rcases List.mem_cons.mp hi with rfl | hi
  · simp [Level.admits, Level.knows, h.config]
  · rw [List.eq_of_mem_replicate hi]
    rfl

theorem admits_commandItems (h : line.Writable) (hnumeral : ∀ n, IsNumeral n (numeral n)) :
    ∀ i ∈ commandItems line.command numeral, line.command.level.admits i = true := by
  obtain ⟨config, verbosity, command⟩ := line
  intro i hi
  simp only [commandItems, argumentItems, List.mem_append, List.mem_map, Option.mem_toList,
    List.mem_replicate] at hi
  rcases hi with ⟨text, ht, rfl⟩ | ((((⟨text, ht, rfl⟩ | ⟨text, ht, rfl⟩) | ⟨text, ht, rfl⟩) |
    ⟨text, ht, rfl⟩) | ⟨ht, rfl⟩) | ⟨ht, rfl⟩
  · have hplain := h.argument text ht
    cases command <;> simp_all [Command.argument?, Command.level, Level.admits, Level.takesArgument]
  · have hplain := h.classPath text ht
    cases command <;> simp_all [Command.arguments, Command.level, Level.admits, Level.knows]
  · have hplain := h.exclude text ht
    cases command <;> simp_all [Command.arguments, Command.level, Level.admits, Level.knows]
  · have hplain := h.encoding text ht
    cases command <;> simp_all [Command.level, Level.admits, Level.knows]
  · obtain ⟨n, hn, rfl⟩ := Option.map_eq_some_iff.mp ht
    have hplain := isPlain_of_isNumeral (hnumeral n)
    cases command <;> simp_all [Command.arguments, Command.level, Level.admits, Level.knows]
  · cases command <;> simp_all [Command.arguments, Command.level, Level.admits, Level.knows]
  · cases command <;> simp_all [Command.level, Level.admits, Level.knows]

theorem exists_spelled (items : List Item) : ∃ words, Spelled items words := by
  induction items with
  | nil => exact ⟨[], .nil⟩
  | cons i items ih =>
    obtain ⟨words, hwords⟩ := ih
    cases i with
    | flag f => exact ⟨_, .option (.flag f) hwords⟩
    | setting s text => exact ⟨_, .option (.apart s text) hwords⟩
    | argument text => exact ⟨_, .argument text hwords⟩

theorem exists_writes (line : CommandLine) : ∃ words, Writes line words := by
  let numeral (n : Nat) := String.ofList (Nat.toDigits 10 n)
  obtain ⟨topWords, htop⟩ := exists_spelled (topItems line)
  obtain ⟨subWords, hsub⟩ := exists_spelled (commandItems line.command numeral)
  have hnumeral (n : Nat) : IsNumeral n (numeral n) := ⟨[], 0, .inl rfl, by simp [numeral]⟩
  exact ⟨_, .intro numeral hnumeral (.refl _) (.refl _) (by simp [commandItems, argumentItems])
    (by simp [commandItems, argumentItems]) htop hsub⟩

theorem readArguments_nil {r : Reading} (hr : r.Says level g)
    (h : level.takesArgument = true → g.argument.isSome = true) :
    readArguments level r [] = .ok g := by
  simpa [readArguments, hr.settle, ok_bind, Option.isSome_iff_ne_none] using h

theorem readTop_subcommand {r : Reading} (hr : r.Says .top g) (c : Command)
    (hsub : readArguments c.level {} ws = .ok g') :
    readTop r (c.name :: ws) = assemble g c.level g' := by
  have hallows : r.allowsSubcommand = true := by
    have hawaiting := hr.not_awaiting
    unfold Reading.allowsSubcommand
    rw [hr.onlyArguments]
    cases hp : r.pending with
    | awaiting s => exact absurd hp (hawaiting s)
    | _ => rfl
  have hname : c.name ≠ "help" ∧ Level.ofName? c.name = some c.level := by
    cases c <;> exact ⟨by simp [Command.name], rfl⟩
  simp [readTop, hallows, hname.1, hname.2, hsub, hr.settle, ok_bind]

theorem assemble_written (h : line.verbosity ≤ maxVerbosity) :
    assemble { verbose := verbosity? line.verbosity, config := some line.config } line.command.level
      { arguments := line.command.arguments, argument := line.command.argument? } = .ok line := by
  obtain ⟨config, verbosity, command⟩ := line
  have hverbosity : (verbosity? verbosity).getD 0 = verbosity := by
    cases verbosity with
    | zero => rfl
    | succ n => exact Nat.min_eq_left h
  cases command <;>
    simp [assemble, command?, Command.level, Command.arguments, Command.argument?, hverbosity]

/-- There are ways to write a command line, and every one of them reads back as that command
line. -/
theorem read_written (h : line.Writable) :
    (∃ words, Writes line words) ∧ ∀ words, Writes line words → read words = .ok line := by
  refine ⟨exists_writes line, fun words hw => ?_⟩
  obtain ⟨numeral, hnumeral, hbefore, hbehind, hclassPath, hexclude, htop, hsub⟩ := hw
  rename_i top sub topWords subWords
  -- an option that may be repeated has no value before the subcommand, so no order to keep there
  have hnone (s : Setting) (hs : values s (topItems line) = []) :
      values s top = values s (topItems line) := by
    rw [hs]
    exact List.perm_nil.mp (hs ▸ hbefore.filterMap _)
  have htopHolds := (holds_topItems line).perm hbefore (hnone .classPath (by simp [topItems]))
    (hnone .exclude (by simp [topItems]))
  have hholds := holds_commandItems line.command numeral fun n hn =>
    depth?_of_isNumeral (hnumeral n) (h.depth n hn)
  have hsubHolds := hholds.perm hbehind (hclassPath.trans hholds.classPath)
    (hexclude.trans hholds.exclude)
  have hargument : line.command.level.takesArgument = true →
      line.command.argument?.isSome = true := by
    cases line.command <;> simp [Command.level, Command.argument?, Level.takesArgument]
  obtain ⟨r, hr, htopRead⟩ := htopHolds.read follows_readTop
    (fun i hi => admits_topItems h i (hbefore.mem_iff.mp hi)) htop (line.command.name :: subWords)
  obtain ⟨r', hr', hsubRead⟩ := hsubHolds.read (follows_readArguments line.command.level)
    (fun i hi => admits_commandItems h hnumeral i (hbehind.mem_iff.mp hi)) hsub []
  rw [List.append_nil, readArguments_nil hr' hargument] at hsubRead
  rw [read, htopRead, readTop_subcommand hr line.command hsubRead, assemble_written h.verbosity]

/-- Flags share a word with an option, and the class path is given in two ways with the depth, the
type and a prefix in between. -/
theorem read_written_mixed_scan :
    read ["-vvc", "refs.toml", "scan", "-rplib", "--depth=+007", "a.B", "-x=java.", "--classpath",
      "out"] =
    .ok {
      config := "refs.toml"
      verbosity := 2
      command := .scan "a.B" {
        classPath := ["lib", "out"]
        recursive := true
        exclude := ["java."]
        depth := some 7 } } := by
  have htop := Spelled.option (.cluster (.flag (f := .verbose) rfl (.flag (f := .verbose) rfl
    (.apart (s := .config) rfl "refs.toml")))) .nil
  have hsub := Spelled.option (.cluster (.flag (f := .recursive) rfl
    (.attached (s := .classPath) rfl "lib"))) <|
    .option (.equals .depth "+007") <| .argument "a.B" <|
    .option (.cluster (.equals (s := .exclude) rfl "java.")) <|
    .option (.apart .classPath "out") .nil
  have hnumeral (n : Nat) : IsNumeral n (String.ofList ('+' :: '0' :: '0' :: Nat.toDigits 10 n)) :=
    ⟨['+'], 2, .inr rfl, by simp [List.replicate]⟩
  refine (read_written ?_).2 _ (.intro _ hnumeral ?_ ?_ rfl rfl htop hsub)
  · constructor <;> decide
  · decide
  · decide

end CommandLine

end RefScan
