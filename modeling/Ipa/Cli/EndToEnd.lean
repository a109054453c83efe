import Ipa.Cli.Arguments
import Ipa.Cli.ReadBack
import Ipa.Manifest.Complete
import Ipa.Runtime.Meaning

/-!
# From a manifest to the matches on standard output

A run of the program that builds a manifest and one that parses a text against the image, composed:
whatever JSON text the manifest is written as, a build that ends with status 0 leaves an image from
which every later run prints the meaning of the manifest for its text.
-/

namespace Ipa.Cli

open Run

section Runs

variable [Arith] {formatScore : Binary32 → List UInt8} {sys : System} {disk : Disk}
  {var : Option CStr} {stdin : Stdin} {name : CStr} {args : List CStr}

theorem main_eq : main formatScore sys disk var stdin name args =
    (optionsLoadEnv var >>= fun path => parseArgs args ⟨path, none, false, 0⟩) >>=
      runCommand formatScore sys disk stdin name := by
  rw [bind_assoc]
  rfl

omit [Arith] in
/-- The command of the arguments. -/
theorem command_keeps {X : Stop Empty → Prop} :
    Keeps Quiet X (optionsLoadEnv var >>= fun path => parseArgs args ⟨path, none, false, 0⟩)
      (· = commandOf var args) := by
  refine Keeps.bind (Q := (· = var)) ?_ fun path hpath => ?_
  · cases var with
    | none => exact Keeps.pure rfl
    | some val =>
      exact strdup_served val
  · rw [hpath]
    exact parseArgs_keeps args _ (Nat.zero_le 2)

/-! ## Building -/

open Json in
/-- A manifest that is compiled is the one that the file renders. -/
theorem compileFile_renders {m : Manifest} {text : List UInt8} (hm : Renders m text)
    (hints : ReadsInts text) {host : Host} {emb : Option Emb} {input : InputFile}
    (hcontent : input.content = some text) {image : List UInt8} {e e' : Env} (he : Quiet e)
    (h : (compileFile host emb input).exec e = (.ok image, e')) :
    ∃ e e', (serialize host emb m).exec e = (.ok image, e') := by
  obtain ⟨text', e₁, hread, h⟩ := exec_bind_ok h
  obtain ⟨m', e₂, hparse, hserialize⟩ := exec_bind_ok h
  have hreads : Keeps Quiet (fun _ => True) (readManifest input) (· = text) := by
    unfold readManifest
    rw [hcontent]
    simp only
    by_cases hseeks : input.seeks = false
    · rw [if_pos hseeks]
      exact Keeps.fail trivial
    rw [if_neg hseeks]
    by_cases hempty : input.tell text ≤ 0
    · rw [if_pos hempty]
      exact Keeps.fail trivial
    rw [if_neg hempty]
    refine Keeps.bind Keeps.allocOr fun _ _ => ?_
    by_cases hshort : text.length - input.short ≠ text.length
    · rw [if_pos hshort]
      exact Keeps.fail trivial
    · rw [if_neg hshort]
      exact Keeps.pure rfl
  obtain ⟨rfl, he₁⟩ := hreads.value he hread
  obtain ⟨before, after, t, hobject, htext⟩ := hm
  have htake : Keeps Quiet (fun _ => True) (parseManifest ⟨text', 0⟩) _ :=
    parseManifest_take before hints hobject htext
  have hparses : Keeps Quiet (fun _ => True) (parseText text') (· = m) := by
    unfold parseText
    refine Keeps.bind (htake.catching fun _ _ => trivial) fun r hr => ?_
    split
    · exact Keeps.fail trivial
    · rename_i j m
      exact Keeps.pure (congrArg Prod.snd (hr.1 _ rfl))
  obtain ⟨rfl, -⟩ := hparses.value he₁ (exec_of_building hparse)
  exact ⟨_, _, exec_of_building hserialize⟩

open Json in
/-- **A build** with status 0 leaves the image of the manifest that the file renders, and prints
nothing. -/
theorem main_builds {m : Manifest} {text : List UInt8} (hm : Renders m text)
    (hints : ReadsInts text) {opts : Options} {path : CStr}
    (hcommand : commandOf var args = .run opts) (hpath : opts.schemaPath = some path)
    (hmode : opts.buildMode = true) (hcontent : disk.content path = some text)
    (hstores : (disk.output (outPath path)).Stores) {o : Outcome} {e e' : Env} (he : Quiet e)
    (h : (main formatScore sys disk var stdin name args).exec e = (.ok o, e'))
    (hok : o.status = 0) :
    ∃ image, (∃ e e', (serialize sys.host sys.emb m).exec e = (.ok image, e')) ∧
      o = ⟨0, [], [], disk.store (outPath path) (some image)⟩ := by
  rw [main_eq] at h
  obtain ⟨command, e₁, hread, h⟩ := exec_bind_ok h
  obtain ⟨rfl, he₁⟩ := (command_keeps (X := fun _ => True)).value he hread
  rw [hcommand] at h
  simp only [runCommand, hpath, hmode, if_true] at h
  obtain ⟨served, e₂, hserved, h⟩ := exec_bind_ok h
  rw [exec_alloc_quiet he₁] at hserved
  cases hserved
  obtain ⟨⟨rc, disk'⟩, e₂, hbuild, h⟩ := exec_bind_ok h
  obtain ⟨r, e₃, hcompile, hwrite⟩ := exec_bind_ok hbuild
  cases r with
  | error err =>
    cases hwrite
    have hne := err.rc_ne_ok
    cases hrc : err.rc with
    | ok => exact absurd hrc hne
    | error =>
      rw [hrc] at h
      cases h
      cases hok
    | eformat =>
      rw [hrc] at h
      cases h
      cases hok
  | ok image =>
    have hcompile' : (compileFile sys.host sys.emb (disk.input path)).exec e₁ = (.ok image, e₃) := by
      rw [exec_catching] at hcompile
      rcases hx : (compileFile sys.host sys.emb (disk.input path)).exec e₁ with
        ⟨(f | err) | image', e'⟩ <;> rw [hx] at hcompile <;> cases hcompile
      rfl
    refine ⟨image, compileFile_renders hm hints hcontent he₁ hcompile', ?_⟩
    have hsafe := (@writeImage_safe_iff (disk.output (outPath path)) _
      (compileFile_ne_nil hcompile')).mpr (fun _ => hstores) (disk.content (outPath path))
    simp only at hwrite
    rcases hw : writeImage (disk.output (outPath path)) image (disk.content (outPath path)) with
      ⟨rc', content⟩
    rw [hw] at hwrite hsafe
    cases hwrite
    cases rc' with
    | error =>
      cases h
      cases hok
    | eformat =>
      cases h
      cases hok
    | ok =>
      cases h
      obtain ⟨image', heq, hcontent'⟩ := hsafe.stores rfl
      cases heq
      rw [hcontent']

/-! ## Parsing -/

/-- The text that a run parses: the argument, or what is read from standard input. -/
def Supplies (host : Host) (stdin : Stdin) (textArg : Option CStr) (input : CStr) : Prop :=
  textArg = some input ∨ (textArg = none ∧ stdin.failed = false ∧
    2 * (stdin.content.length + 1) ≤ host.sizeMod ∧ stdin.text = some input)

/-- What the image of a manifest asks of the manifest and the model so that every run can open it
and parse against it. -/
structure Runnable (host : Host) (emb : Emb) (m : Manifest) : Prop where
  whole : m.Whole emb
  named : ∀ ch ∈ childNodes m.nodes, ch.descriptions ≠ [] → isBlank ch.id = false
  nodes : (describedBy emb m.nodes).length ≤ 1024
  children : (describedBy emb (childNodes m.nodes)).length ≤ 1024
  room : emb.dim.toNat * 4 < host.sizeMod

/-- What is opened from the image of a manifest. -/
theorem openSchema_returns {m : Manifest} {emb : Emb} {image : List UInt8}
    (hbuild : ∃ e e', (serialize sys.host sys.emb m).exec e = (.ok image, e'))
    (hemb : sys.emb = some emb) (hrunnable : Runnable sys.host emb m) :
    Returns (openSchema sys image) fun s => m.Valid ∧ s.Searchable ∧ SchemaOf sys emb m s := by
  obtain ⟨e, e', hbuild⟩ := hbuild
  obtain ⟨hvalid, emb', hemb', p, hp, himage, hhalf⟩ := serialize_ok hbuild
  rw [hemb] at hemb'
  cases hemb'
  have hopens : Returns (openSchema sys image) (SchemaOf sys emb m) := by
    rw [himage, p.length_image] at hhalf
    rw [himage]
    refine (hp.openSchema_keeps hrunnable.whole.entries hemb hhalf hvalid fun hbad => ?_).mono
      fun s hs => hp.schemaOf (Parts.size_lt hhalf) hrunnable.whole hemb hs.1
    obtain ⟨ch, hch, hdesc, hblank⟩ := hbad
    rw [hrunnable.named ch hch hdesc] at hblank
    cases hblank
  refine hopens.ran.mono fun s hs => ?_
  obtain ⟨hschema, e₀, e₁, hopen⟩ := hs
  obtain ⟨-, hready, -⟩ := schemaOf_of_whole hbuild hopen hemb hrunnable.whole
  exact ⟨hvalid, hready, hschema⟩

/-- **A run on the image** of a manifest prints the meaning of the manifest. -/
theorem main_parses {m : Manifest} {emb : Emb} {image : List UInt8}
    (hbuild : ∃ e e', (serialize sys.host sys.emb m).exec e = (.ok image, e'))
    (hemb : sys.emb = some emb) (hrunnable : Runnable sys.host emb m) {opts : Options}
    {path : CStr} (hcommand : commandOf var args = .run opts) (hpath : opts.schemaPath = some path)
    (hmode : opts.buildMode = false) (hcontent : disk.content path = some image)
    (hmaps : disk.maps path = true) {input : CStr}
    (hinput : Supplies sys.host stdin opts.textArg input) (hne : input.bytes ≠ []) :
    Returns (main formatScore sys disk var stdin name args) fun o =>
      ∃ l : Lookups emb m, o = ⟨0,
        printResult formatScore ⟨!(l.meaning input).isEmpty, l.meaning input⟩, [], disk⟩ := by
  rw [main_eq]
  refine Keeps.bind command_keeps fun command hread => ?_
  subst hread
  rw [hcommand]
  simp only [runCommand, hpath, hmode, Bool.false_eq_true, if_false]
  have htext : Keeps Quiet (fun _ => False) (inputText sys.host opts.textArg stdin)
      (· = some input) := by
    rcases hinput with harg | ⟨harg, hfailed, hfits, htext⟩
    · rw [harg]
      exact Keeps.pure rfl
    · rw [harg, ← htext]
      exact readStdin_keeps hfits fun h => by rw [hfailed] at h; cases h
  unfold runParse
  refine Keeps.bind (htext.catching fun _ h => h) fun r hr => ?_
  obtain rfl : r = .ok (some input) := by
    cases r with
    | error err => exact (hr.2 err rfl).elim
    | ok text => rw [hr.1 text rfl]
  simp only [if_neg hne]
  unfold runText openPath
  rw [hmaps, if_pos rfl, hcontent]
  have hopens : Keeps Quiet (fun _ => False) (openSchema sys image) _ :=
    openSchema_returns hbuild hemb hrunnable
  refine Keeps.bind (hopens.catching fun _ h => h) fun r hr => ?_
  cases r with
  | error err => exact (hr.2 err rfl).elim
  | ok s =>
    obtain ⟨hvalid, hready, hs⟩ := hr.1 s rfl
    have hroom : s.Room sys.host := by
      rw [Schema.Room, hs.model]
      exact hrunnable.room
    have hparses : Keeps Quiet (fun _ => False) (parse sys.host s input) _ :=
      hs.parse_returns hready hrunnable.nodes hrunnable.children (.inl hroom) hvalid input
    refine Keeps.bind (hparses.catching fun _ h => h) fun r hr => ?_
    cases r with
    | error err => exact (hr.2 err rfl).elim
    | ok result =>
      obtain ⟨hmatches, hflag⟩ := hr.1 result rfl
      obtain ⟨ok, matches_⟩ := result
      simp only at hmatches hflag
      exact Keeps.pure ⟨_, by rw [hmatches, hflag]⟩

open Json in
/-- **End to end**: a build of a file that renders a manifest, when it ends with status 0 and the
output stores what is written to it, leaves an image and nothing else; and every later run on that
image, whatever the seeds of its process, prints the meaning of the manifest for the text it is
given, with status 0. -/
theorem main_means {m : Manifest} {text : List UInt8} (hm : Renders m text)
    (hints : ReadsInts text) {opts : Options} {path : CStr}
    (hcommand : commandOf var args = .run opts) (hpath : opts.schemaPath = some path)
    (hmode : opts.buildMode = true) (hcontent : disk.content path = some text)
    (hstores : (disk.output (outPath path)).Stores) {o : Outcome} {e e' : Env} (he : Quiet e)
    (h : (main formatScore sys disk var stdin name args).exec e = (.ok o, e'))
    (hok : o.status = 0) :
    ∃ image, o = ⟨0, [], [], disk.store (outPath path) (some image)⟩ ∧
      ∀ emb, sys.emb = some emb → Runnable sys.host emb m →
        ∀ (sys' : System), sys'.host = sys.host → sys'.emb = sys.emb →
        ∀ (disk' : Disk), disk'.content (outPath path) = some image →
          disk'.maps (outPath path) = true →
        ∀ (var' : Option CStr) (stdin' : Stdin) (name' : CStr) (args' : List CStr) (opts' : Options)
          (input : CStr), commandOf var' args' = .run opts' →
          opts'.schemaPath = some (outPath path) → opts'.buildMode = false →
          Supplies sys.host stdin' opts'.textArg input → input.bytes ≠ [] →
            Returns (main formatScore sys' disk' var' stdin' name' args') fun o =>
              ∃ l : Lookups emb m, o = ⟨0,
                printResult formatScore ⟨!(l.meaning input).isEmpty, l.meaning input⟩, [], disk'⟩ := by
  obtain ⟨image, hbuild, ho⟩ := main_builds hm hints hcommand hpath hmode hcontent hstores he h hok
  refine ⟨image, ho, ?_⟩
  intro emb hemb hrunnable sys' hhost hemb' disk' hcontent' hmaps var' stdin' name' args' opts' input
    hcommand' hpath' hmode' hinput hne
  rw [← hhost] at hrunnable hinput
  rw [← hemb'] at hemb
  rw [← hhost, ← hemb'] at hbuild
  exact main_parses hbuild hemb hrunnable hcommand' hpath' hmode' hcontent' hmaps hinput hne

end Runs

/-! ## A manifest that is built and run -/

section Rendering

open Json

/-- Members without white space. -/
def compactMembers : List (CStr × List UInt8) → List UInt8
  | [] => []
  | [(name, t)] => (Spelling.of name).text ++ 0x3A :: t
  | (name, t) :: rest => (Spelling.of name).text ++ 0x3A :: (t ++ 0x2C :: compactMembers rest)

theorem fields_compact {σ : Type} {Field : σ → List UInt8 → List UInt8 → Prop} {x : σ} :
    ∀ ms : List (CStr × List UInt8), ms ≠ [] → (ms.map fun f => f.1.bytes).Nodup →
      (∀ f ∈ ms, Field x f.1.bytes f.2) →
        Json.Fields Field x (ms.map fun f => f.1.bytes) (compactMembers ms)
  | [], hne, _, _ => absurd rfl hne
  | [(name, t)], _, _, h => by
    have hfield : Field x (Spelling.of name).value.bytes t := by
      rw [Spelling.value_of]
      exact h _ List.mem_cons_self
    have hmember := Json.Fields.last .none .none .none .none (Spelling.of name) hfield
    rw [Spelling.value_of] at hmember
    simpa [compactMembers, Gap.none] using hmember
  | (name, t) :: f :: rest, _, hnodup, h => by
    obtain ⟨hfresh, hnodup⟩ := List.nodup_cons.mp hnodup
    obtain ⟨hfirst, hrest⟩ := List.forall_mem_cons.mp h
    have hfield : Field x (Spelling.of name).value.bytes t := by
      rw [Spelling.value_of]
      exact hfirst
    have hmember := Json.Fields.more .none .none .none .none (Spelling.of name) hfield
      (fields_compact (f :: rest) (List.cons_ne_nil _ _) hnodup hrest)
      (by rw [Spelling.value_of]; exact hfresh)
    rw [Spelling.value_of] at hmember
    simpa [compactMembers, Gap.none] using hmember

theorem spells_of (s : CStr) : Spells s (Spelling.of s).text := ⟨_, Spelling.value_of s, rfl⟩

/-- A manifest of one node. -/
def loneManifest : Manifest := { manifestOf [leaf "P" ["p"] []] with version := some (.ofString "r") }

/-- The members of its node, and its own. -/
def loneNodeMembers : List (CStr × List UInt8) :=
  [(.ofString "id", (Spelling.of (.ofString "P")).text),
    (.ofString "descriptions", 0x5B :: ((Spelling.of (.ofString "p")).text ++ [0x5D]))]

def loneMembers : List (CStr × List UInt8) :=
  [(.ofString "schema", (Spelling.of (.ofString "ipa.map.v1")).text),
    (.ofString "id", (Spelling.of (.ofString "m")).text),
    (.ofString "vendor", (Spelling.of (.ofString "v")).text),
    (.ofString "version", (Spelling.of (.ofString "r")).text),
    (.ofString "nodes", 0x5B :: (0x7B :: (compactMembers loneNodeMembers ++ [0x7D]) ++ [0x5D]))]

def loneText : List UInt8 := 0x7B :: (compactMembers loneMembers ++ [0x7D])

theorem loneText_renders : @Renders ieee loneManifest loneText := by
  have hnode : NodeText (leaf "P" ["p"] []) (0x7B :: (compactMembers loneNodeMembers ++ [0x7D])) := by
    refine .full (fields_compact loneNodeMembers (by decide) (by decide +kernel) ?_) ?_
    · intro f hf
      simp only [loneNodeMembers, List.mem_cons, List.not_mem_nil, or_false] at hf
      rcases hf with rfl | rfl
      · exact NodeField.id rfl (spells_of _)
      · refine @NodeField.descriptions _ [.ofString "p"] _ rfl (.full ?_)
        simpa [Gap.none] using Listed.last .none .none (spells_of (.ofString "p"))
    · exact ⟨fun h => absurd h (by decide +kernel), fun h => absurd h (by decide +kernel),
        fun _ => rfl, fun _ => rfl⟩
  refine ⟨.none, .none, loneText, .full (fields_compact loneMembers (by decide) (by decide +kernel)
    ?_) ?_, by simp [Gap.none]⟩
  · intro f hf
    simp only [loneMembers, List.mem_cons, List.not_mem_nil, or_false] at hf
    rcases hf with rfl | rfl | rfl | rfl | rfl
    · exact @ManifestField.schema ieee _ _ _ rfl (spells_of _)
    · exact @ManifestField.id ieee _ _ _ rfl (spells_of _)
    · exact @ManifestField.vendor ieee _ _ _ rfl (spells_of _)
    · exact @ManifestField.version ieee _ _ _ rfl (spells_of _)
    · refine @ManifestField.nodes ieee _ _ (.full ?_)
      have hnodes : Json.Listed NodeText loneManifest.nodes _ := .last .none .none hnode
      simpa only [Gap.none, List.nil_append, List.append_nil] using hnodes
  · exact ⟨fun h => absurd h (by decide +kernel), fun h => absurd h (by decide +kernel),
      fun h => absurd h (by decide +kernel), fun h => absurd h (by decide +kernel),
      fun _ => ⟨fun _ => rfl, fun _ => rfl, fun _ => rfl⟩, fun h => absurd h (by decide +kernel)⟩

theorem loneText_ints : @ReadsInts ieee loneText := by
  intro n k hinfix hvalue
  obtain ⟨htext, hone⟩ := numeral_lone (d := 0x31) (by decide +kernel) (by decide +kernel) hinfix
  have hk : k = 1 := by
    rw [hvalue] at hone
    have hint : k.toInt = JsonText.digitsValue [0x31] := by exact_mod_cast hone
    exact Int32.toInt_inj.mp hint
  rw [htext, hk]
  decide +kernel

end Rendering

/-- A disk with one file, on which nothing fails. -/
def diskOf (path : CStr) (file : List UInt8) : Disk where
  content p := if p = path then some file else none
  seeks _ := true
  tells _ := true
  short _ := 0
  output _ := ⟨true, 0, 0, 0⟩
  maps _ := true

def loneDisk : Disk := diskOf (.ofString "m.json") loneText

/-- The text `x p` has a match for each of its words. -/
def lonePrinted : List UInt8 := ascii ("\x7b\"ok\":true,\"matches\":[\x7b\"id\":\"P\",\"span\":\"x\"," ++
  "\"score\":0.8944\x7d,\x7b\"id\":\"P\",\"span\":\"p\",\"score\":1.0000\x7d]\x7d\n")

/-- `ipa -b m.json`, and `ipa m.ipa "x p"` on the disk that it leaves. -/
theorem main_means_lone : ∃ o e o' e' l,
    (@main ieee fixed4 tiltSystem loneDisk none .empty (.ofString "ipa")
      [.ofString "-b", .ofString "m.json"]).exec ⟨[], []⟩ = (.ok o, e) ∧
    (@main ieee fixed4 tiltSystem o.disk none .empty (.ofString "ipa")
      [.ofString "m.ipa", .ofString "x p"]).exec ⟨[], []⟩ = (.ok o', e') ∧
    o'.out = printResult fixed4 ⟨!(@Lookups.meaning ieee tiltEmb loneManifest l
      (.ofString "x p")).isEmpty, @Lookups.meaning ieee tiltEmb loneManifest l (.ofString "x p")⟩ ∧
    o'.out = lonePrinted := by
  let prints : Outcome → Bool := fun o => decide (o.out = lonePrinted)
  let test : Outcome → Bool := fun o => decide (o.status = 0) &&
    ((@main ieee fixed4 tiltSystem o.disk none .empty (.ofString "ipa")
      [.ofString "m.ipa", .ofString "x p"]).value? ⟨[], []⟩).any prints
  obtain ⟨o, e, hbuild, htest⟩ := exec_of_value?
    (x := @main ieee fixed4 tiltSystem loneDisk none .empty (.ofString "ipa")
      [.ofString "-b", .ofString "m.json"]) (e := ⟨[], []⟩) (q := test) (by decide +kernel)
  simp only [test, Bool.and_eq_true, decide_eq_true_eq] at htest
  obtain ⟨hok, hparse⟩ := htest
  obtain ⟨o', e', hparse, hout⟩ := exec_of_value? hparse
  have hpath : outPath (.ofString "m.json") = .ofString "m.ipa" := by decide +kernel
  obtain ⟨image, ho, hruns⟩ := @main_means ieee fixed4 tiltSystem loneDisk none .empty
    (.ofString "ipa") [.ofString "-b", .ofString "m.json"] loneManifest loneText loneText_renders
    loneText_ints ⟨some (.ofString "m.json"), none, true, 1⟩ (.ofString "m.json")
    (by decide +kernel) rfl rfl rfl ⟨rfl, .inl rfl⟩ o ⟨[], []⟩ e rfl hbuild hok
  have hcontent : o.disk.content (outPath (.ofString "m.json")) = some image := by
    rw [ho]
    simp only [Disk.store, if_true]
  have hreturns := hruns tiltEmb rfl ⟨Manifest.whole_of_size (by decide +kernel), by decide +kernel,
    by decide +kernel, by decide +kernel, by decide +kernel⟩ tiltSystem rfl rfl o.disk hcontent
    (by rw [ho]; rfl) none
    .empty (.ofString "ipa") [.ofString "m.ipa", .ofString "x p"]
    ⟨some (.ofString "m.ipa"), some (.ofString "x p"), false, 2⟩ (.ofString "x p")
    (by decide +kernel) (by decide +kernel) rfl (.inl rfl) (by decide +kernel)
  obtain ⟨o'', e'', hparse', -, l, ho''⟩ := Returns.exec hreturns (e := ⟨[], []⟩) rfl
  rw [hparse] at hparse'
  cases hparse'
  refine ⟨o, e, o', e', l, hbuild, hparse, ?_, of_decide_eq_true hout⟩
  rw [ho'']

end Ipa.Cli
