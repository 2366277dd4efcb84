/-
Networks of sequential processes over byte streams.

Every link is a stream from one process to another, of bounded capacity or
not. A process is at any time computing, or sending on one link, or receiving
on one, and a transfer moves any positive number of bytes that fit: where the
bytes are cut and who goes first is not the processes' choice.

Two steps of such a network never get in each other's way, so it is confluent
(`Lawful.diamond`): however a run goes, it can still end where another run has
ended (`Lawful.reaches_final`), and whatever the capacities, it ends nowhere
else (`Lawful.final_unique`).
-/
import Mathlib.Data.ENat.Basic
import Mathlib.Data.Fintype.Basic
import Mathlib.Logic.Function.Basic
import Mathlib.Logic.Relation

namespace RdmaInfra.Kahn

/-- Processes at the places `ι`, in states `X`, and links `κ` between them.
`push c n x`: the process in `x` at the source of `c` sends `n` bytes.
`pull c bs x`: the one at its end receives `bs`. -/
structure Net (ι κ X β : Type) where
  src : κ → ι
  dst : κ → ι
  run : ι → X → Option X
  push : κ → Nat → X → Option (X × List β)
  pull : κ → List β → X → Option X

structure State (ι κ X β : Type) where
  node : ι → X
  link : κ → List β

inductive Action (ι κ : Type)
  | run (i : ι)
  | push (c : κ) (n : Nat)
  | pull (c : κ) (n : Nat)

variable {ι κ X β : Type} [DecidableEq κ]

/-- Where an action happens. -/
def Net.site (W : Net ι κ X β) : Action ι κ → ι
  | .run i => i
  | .push c _ => W.src c
  | .pull c _ => W.dst c

/-- What an action makes of the process it happens at, and of the links. -/
def Net.act (W : Net ι κ X β) (cap : κ → ℕ∞) (a : Action ι κ) (x : X) (l : κ → List β) :
    Option (X × (κ → List β)) :=
  match a with
  | .run i => (W.run i x).map fun y => (y, l)
  | .push c n =>
    if 0 < n ∧ (((l c).length + n : Nat) : ℕ∞) ≤ cap c then
      (W.push c n x).map fun (y, bs) => (y, Function.update l c (l c ++ bs))
    else none
  | .pull c n =>
    if 0 < n ∧ n ≤ (l c).length then
      (W.pull c ((l c).take n) x).map fun y => (y, Function.update l c ((l c).drop n))
    else none

/-! ## Steps -/

section Fire

variable [DecidableEq ι]

def Net.fire (W : Net ι κ X β) (cap : κ → ℕ∞) (a : Action ι κ) (s : State ι κ X β) : Option (State ι κ X β) :=
  (W.act cap a (s.node (W.site a)) s.link).map fun (y, l) => ⟨Function.update s.node (W.site a) y, l⟩

def Net.Step (W : Net ι κ X β) (cap : κ → ℕ∞) (s t : State ι κ X β) : Prop := ∃ a, W.fire cap a s = some t

/-- Some run over links of capacity `cap` leads from `s` to `t`. -/
def Net.Steps (W : Net ι κ X β) (cap : κ → ℕ∞) : State ι κ X β → State ι κ X β → Prop :=
  Relation.ReflTransGen (W.Step cap)

/-- No process can do anything, however much room there is. -/
def Net.Final (W : Net ι κ X β) (s : State ι κ X β) : Prop := ∀ t, ¬W.Step ⊤ s t

end Fire

/-- Processes are sequential, and a transfer may be cut anywhere. -/
structure Net.Lawful (W : Net ι κ X β) : Prop where
  run_push : ∀ {c n x y z}, W.run (W.src c) x = some y → 0 < n → W.push c n x ≠ some z
  run_pull : ∀ {c bs x y z}, W.run (W.dst c) x = some y → bs ≠ [] → W.pull c bs x ≠ some z
  push_pull : ∀ {c d n bs x y z}, W.src c = W.dst d → 0 < n → bs ≠ [] → W.push c n x = some y → W.pull d bs x ≠ some z
  push_push : ∀ {c d n m x y z}, W.src c = W.src d → 0 < n → 0 < m → W.push c n x = some y → W.push d m x = some z → c = d
  pull_pull : ∀ {c d bs cs x y z}, W.dst c = W.dst d → bs ≠ [] → cs ≠ [] → W.pull c bs x = some y →
    W.pull d cs x = some z → c = d
  push_add : ∀ {c n m x y z bs cs}, 0 < n → 0 < m → W.push c n x = some (y, bs) → W.push c (n + m) x = some (z, cs) →
    bs.length = n ∧ ∃ ds, W.push c m y = some (z, ds) ∧ cs = bs ++ ds
  pull_append : ∀ {c bs cs x y z}, cs ≠ [] → W.pull c bs x = some y → W.pull c (bs ++ cs) x = some z →
    W.pull c cs y = some z

/-! ## Actions at different processes -/

variable {W : Net ι κ X β} {cap : κ → ℕ∞} {a b : Action ι κ} {x y x' y' : X} {l l' l'' : κ → List β}

theorem act_run {i : ι} : W.act cap (.run i) x l = some (y, l') ↔ W.run i x = some y ∧ l' = l := by
  simp only [Net.act, Option.map_eq_some_iff, Prod.mk.injEq]
  constructor
  · rintro ⟨z, hz, rfl, rfl⟩
    exact ⟨hz, rfl⟩
  · rintro ⟨hz, rfl⟩
    exact ⟨y, hz, rfl, rfl⟩

theorem act_push {c : κ} {n : Nat} : W.act cap (.push c n) x l = some (y, l') ↔
    0 < n ∧ (((l c).length + n : Nat) : ℕ∞) ≤ cap c ∧
      ∃ bs, W.push c n x = some (y, bs) ∧ l' = Function.update l c (l c ++ bs) := by
  simp only [Net.act]
  split
  next h =>
    simp only [Option.map_eq_some_iff, Prod.mk.injEq]
    constructor
    · rintro ⟨⟨z, bs⟩, hz, rfl, rfl⟩
      exact ⟨h.1, h.2, bs, hz, rfl⟩
    · rintro ⟨-, -, bs, hz, rfl⟩
      exact ⟨(y, bs), hz, rfl, rfl⟩
  next h =>
    constructor
    · intro hn
      cases hn
    · rintro ⟨h1, h2, -⟩
      exact absurd ⟨h1, h2⟩ h

theorem act_pull {c : κ} {n : Nat} : W.act cap (.pull c n) x l = some (y, l') ↔
    0 < n ∧ n ≤ (l c).length ∧ W.pull c ((l c).take n) x = some y ∧ l' = Function.update l c ((l c).drop n) := by
  simp only [Net.act]
  split
  next h =>
    simp only [Option.map_eq_some_iff, Prod.mk.injEq]
    constructor
    · rintro ⟨z, hz, rfl, rfl⟩
      exact ⟨h.1, h.2, hz, rfl⟩
    · rintro ⟨-, -, hz, rfl⟩
      exact ⟨y, hz, rfl, rfl⟩
  next h =>
    constructor
    · intro hn
      cases hn
    · rintro ⟨h1, h2, -⟩
      exact absurd ⟨h1, h2⟩ h

/-- A link's two ends do not get in each other's way. -/
theorem act_push_pull {c d : κ} {n m : Nat} (ha : W.act cap (.push c n) x l = some (x', l'))
    (hb : W.act cap (.pull d m) y l = some (y', l'')) :
    ∃ k, W.act cap (.pull d m) y l' = some (y', k) ∧ W.act cap (.push c n) x l'' = some (x', k) := by
  obtain ⟨hn, hroom, bs, hx, rfl⟩ := act_push.mp ha
  obtain ⟨hm, hle, hy, rfl⟩ := act_pull.mp hb
  by_cases hcd : c = d
  · subst hcd
    refine ⟨Function.update l c ((l c).drop m ++ bs), ?_, ?_⟩
    · refine act_pull.mpr ⟨hm, ?_, ?_, ?_⟩
      · rw [Function.update_self, List.length_append]
        omega
      · rwa [Function.update_self, List.take_append_of_le_length hle]
      · rw [Function.update_self, List.drop_append_of_le_length hle, Function.update_idem]
    · refine act_push.mpr ⟨hn, le_trans ?_ hroom, bs, hx, ?_⟩
      · rw [Function.update_self, List.length_drop]
        exact Nat.cast_le.mpr (by omega)
      · rw [Function.update_self, Function.update_idem]
  · refine ⟨Function.update (Function.update l c (l c ++ bs)) d ((l d).drop m), ?_, ?_⟩
    · refine act_pull.mpr ⟨hm, ?_, ?_, ?_⟩
      · rwa [Function.update_of_ne (Ne.symm hcd)]
      · rwa [Function.update_of_ne (Ne.symm hcd)]
      · rw [Function.update_of_ne (Ne.symm hcd)]
    · refine act_push.mpr ⟨hn, ?_, bs, hx, ?_⟩
      · rwa [Function.update_of_ne hcd]
      · rw [Function.update_of_ne hcd, Function.update_comm hcd]

/-- Neither of two actions at different processes disables the other, nor
changes what it does. -/
theorem act_comm (hne : W.site a ≠ W.site b) (ha : W.act cap a x l = some (x', l'))
    (hb : W.act cap b y l = some (y', l'')) :
    ∃ k, W.act cap b y l' = some (y', k) ∧ W.act cap a x l'' = some (x', k) := by
  cases a with
  | run i =>
    obtain ⟨hx, rfl⟩ := act_run.mp ha
    exact ⟨l'', hb, act_run.mpr ⟨hx, rfl⟩⟩
  | push c n =>
    cases b with
    | run i =>
      obtain ⟨hy, rfl⟩ := act_run.mp hb
      exact ⟨_, act_run.mpr ⟨hy, rfl⟩, ha⟩
    | push d m =>
      obtain ⟨hn, hroom, bs, hx, rfl⟩ := act_push.mp ha
      obtain ⟨hm, hroom', cs, hy, rfl⟩ := act_push.mp hb
      have hcd : c ≠ d := fun h => hne (by rw [h]; rfl)
      refine ⟨Function.update (Function.update l c (l c ++ bs)) d (l d ++ cs), ?_, ?_⟩
      · refine act_push.mpr ⟨hm, ?_, cs, hy, ?_⟩
        · rwa [Function.update_of_ne hcd.symm]
        · rw [Function.update_of_ne hcd.symm]
      · refine act_push.mpr ⟨hn, ?_, bs, hx, ?_⟩
        · rwa [Function.update_of_ne hcd]
        · rw [Function.update_of_ne hcd, Function.update_comm hcd]
    | pull d m => exact act_push_pull ha hb
  | pull c n =>
    cases b with
    | run i =>
      obtain ⟨hy, rfl⟩ := act_run.mp hb
      exact ⟨_, act_run.mpr ⟨hy, rfl⟩, ha⟩
    | push d m =>
      obtain ⟨k, h1, h2⟩ := act_push_pull hb ha
      exact ⟨k, h2, h1⟩
    | pull d m =>
      obtain ⟨hn, hle, hx, rfl⟩ := act_pull.mp ha
      obtain ⟨hm, hle', hy, rfl⟩ := act_pull.mp hb
      have hcd : c ≠ d := fun h => hne (by rw [h]; rfl)
      refine ⟨Function.update (Function.update l c ((l c).drop n)) d ((l d).drop m), ?_, ?_⟩
      · refine act_pull.mpr ⟨hm, ?_, ?_, ?_⟩
        · rwa [Function.update_of_ne hcd.symm]
        · rwa [Function.update_of_ne hcd.symm]
        · rw [Function.update_of_ne hcd.symm]
      · refine act_pull.mpr ⟨hn, ?_, ?_, ?_⟩
        · rwa [Function.update_of_ne hcd]
        · rwa [Function.update_of_ne hcd]
        · rw [Function.update_of_ne hcd, Function.update_comm hcd]

/-! ## Actions at one process -/

theorem take_ne_nil {n : Nat} {bs : List β} (hn : 0 < n) (hle : n ≤ bs.length) : bs.take n ≠ [] := by
  intro h
  have hlen := congrArg List.length h
  rw [List.length_take, List.length_nil] at hlen
  omega

/-- A longer transfer is a shorter one and the rest of it. -/
theorem Net.Lawful.act_push_add (hW : W.Lawful) {c : κ} {n m : Nat} (hm : 0 < m)
    (ha : W.act cap (.push c n) x l = some (x', l')) (hb : W.act cap (.push c (n + m)) x l = some (y', l'')) :
    W.act cap (.push c m) x' l' = some (y', l'') := by
  obtain ⟨hn, hroom, bs, hx, rfl⟩ := act_push.mp ha
  obtain ⟨-, hroom', cs, hy, rfl⟩ := act_push.mp hb
  obtain ⟨hlen, ds, hd, rfl⟩ := hW.push_add hn hm hx hy
  refine act_push.mpr ⟨hm, ?_, ds, hd, ?_⟩
  · rw [Function.update_self, List.length_append, hlen, Nat.add_assoc]
    exact hroom'
  · rw [Function.update_self, Function.update_idem, List.append_assoc]

theorem Net.Lawful.act_pull_add (hW : W.Lawful) {c : κ} {n m : Nat} (hm : 0 < m)
    (ha : W.act cap (.pull c n) x l = some (x', l')) (hb : W.act cap (.pull c (n + m)) x l = some (y', l'')) :
    W.act cap (.pull c m) x' l' = some (y', l'') := by
  obtain ⟨hn, hle, hx, rfl⟩ := act_pull.mp ha
  obtain ⟨-, hle', hy, rfl⟩ := act_pull.mp hb
  rw [List.take_add] at hy
  refine act_pull.mpr ⟨hm, ?_, ?_, ?_⟩
  · rw [Function.update_self, List.length_drop]
    omega
  · rw [Function.update_self]
    refine hW.pull_append (take_ne_nil hm ?_) hx hy
    rw [List.length_drop]
    omega
  · rw [Function.update_self, Function.update_idem, List.drop_drop]

/-- Two actions of one process are one action, or a shorter and a longer
transfer on one link. -/
theorem Net.Lawful.act_same (hW : W.Lawful) (hab : W.site a = W.site b) (ha : W.act cap a x l = some (x', l'))
    (hb : W.act cap b x l = some (y', l'')) :
    (x', l') = (y', l'') ∨ (∃ c, W.site c = W.site a ∧ W.act cap c x' l' = some (y', l'')) ∨
      ∃ c, W.site c = W.site a ∧ W.act cap c y' l'' = some (x', l') := by
  cases a with
  | run i =>
    obtain ⟨hx, rfl⟩ := act_run.mp ha
    cases b with
    | run j =>
      obtain ⟨hy, rfl⟩ := act_run.mp hb
      obtain rfl : i = j := hab
      cases hx.symm.trans hy
      exact .inl rfl
    | push c n =>
      obtain ⟨hn, -, bs, hy, -⟩ := act_push.mp hb
      obtain rfl : i = W.src c := hab
      exact absurd hy (hW.run_push hx hn)
    | pull c n =>
      obtain ⟨hn, hle, hy, -⟩ := act_pull.mp hb
      obtain rfl : i = W.dst c := hab
      exact absurd hy (hW.run_pull hx (take_ne_nil hn hle))
  | push c n =>
    obtain ⟨hn, -, bs, hx, -⟩ := act_push.mp ha
    cases b with
    | run j =>
      obtain ⟨hy, -⟩ := act_run.mp hb
      obtain rfl : W.src c = j := hab
      exact absurd hx (hW.run_push hy hn)
    | push d m =>
      obtain ⟨hm, -, cs, hy, -⟩ := act_push.mp hb
      obtain rfl := hW.push_push hab hn hm hx hy
      rcases Nat.lt_trichotomy n m with hlt | rfl | hlt
      · obtain ⟨k, rfl⟩ := Nat.exists_eq_add_of_lt hlt
        exact .inr (.inl ⟨.push c (k + 1), rfl, hW.act_push_add (by omega) ha hb⟩)
      · exact .inl (Option.some.inj (ha.symm.trans hb))
      · obtain ⟨k, rfl⟩ := Nat.exists_eq_add_of_lt hlt
        exact .inr (.inr ⟨.push c (k + 1), rfl, hW.act_push_add (by omega) hb ha⟩)
    | pull d m =>
      obtain ⟨hm, hle, hy, -⟩ := act_pull.mp hb
      exact absurd hy (hW.push_pull hab hn (take_ne_nil hm hle) hx)
  | pull c n =>
    obtain ⟨hn, hle, hx, -⟩ := act_pull.mp ha
    cases b with
    | run j =>
      obtain ⟨hy, -⟩ := act_run.mp hb
      obtain rfl : W.dst c = j := hab
      exact absurd hx (hW.run_pull hy (take_ne_nil hn hle))
    | push d m =>
      obtain ⟨hm, -, cs, hy, -⟩ := act_push.mp hb
      exact absurd hx (hW.push_pull hab.symm hm (take_ne_nil hn hle) hy)
    | pull d m =>
      obtain ⟨hm, hle', hy, -⟩ := act_pull.mp hb
      obtain rfl := hW.pull_pull hab (take_ne_nil hn hle) (take_ne_nil hm hle') hx hy
      rcases Nat.lt_trichotomy n m with hlt | rfl | hlt
      · obtain ⟨k, rfl⟩ := Nat.exists_eq_add_of_lt hlt
        exact .inr (.inl ⟨.pull c (k + 1), rfl, hW.act_pull_add (by omega) ha hb⟩)
      · exact .inl (Option.some.inj (ha.symm.trans hb))
      · obtain ⟨k, rfl⟩ := Nat.exists_eq_add_of_lt hlt
        exact .inr (.inr ⟨.pull c (k + 1), rfl, hW.act_pull_add (by omega) hb ha⟩)

/-! ## Confluence -/

section Confluence

variable [DecidableEq ι] {s t u v : State ι κ X β}

theorem fire_eq (h : W.fire cap a s = some t) :
    ∃ y l, W.act cap a (s.node (W.site a)) s.link = some (y, l) ∧ t = ⟨Function.update s.node (W.site a) y, l⟩ := by
  obtain ⟨⟨y, l⟩, ha, rfl⟩ := Option.map_eq_some_iff.mp h
  exact ⟨y, l, ha, rfl⟩

theorem fire_of_act {f : ι → X} (h : W.act cap a (f (W.site a)) l = some (y, l')) :
    W.fire cap a ⟨f, l⟩ = some ⟨Function.update f (W.site a) y, l'⟩ := by
  rw [Net.fire, h]
  rfl

/-- After a step of a process, another of its steps is one from the state it
is then in. -/
theorem fire_again {f : ι → X} {i : ι} (hi : W.site a = i) (h : W.act cap a x l = some (y, l')) :
    W.fire cap a ⟨Function.update f i x, l⟩ = some ⟨Function.update f i y, l'⟩ := by
  subst hi
  rw [fire_of_act (y := y) (by rwa [Function.update_self]), Function.update_idem]

theorem Net.Lawful.diamond (hW : W.Lawful) (hst : W.Step cap s t) (hsu : W.Step cap s u) :
    t = u ∨ W.Step cap t u ∨ W.Step cap u t ∨ ∃ v, W.Step cap t v ∧ W.Step cap u v := by
  obtain ⟨a, hst⟩ := hst
  obtain ⟨b, hsu⟩ := hsu
  obtain ⟨x, l, ha, rfl⟩ := fire_eq hst
  obtain ⟨y, l', hb, rfl⟩ := fire_eq hsu
  by_cases hab : W.site a = W.site b
  · rw [← hab] at hb ⊢
    rcases hW.act_same hab ha hb with heq | ⟨c, hc, hstep⟩ | ⟨c, hc, hstep⟩
    · cases heq
      exact .inl rfl
    · exact .inr (.inl ⟨c, fire_again hc hstep⟩)
    · exact .inr (.inr (.inl ⟨c, fire_again hc hstep⟩))
  · obtain ⟨k, h1, h2⟩ := act_comm hab ha hb
    refine .inr (.inr (.inr ⟨⟨Function.update (Function.update s.node (W.site a) x) (W.site b) y, k⟩, ⟨b, ?_⟩, ⟨a, ?_⟩⟩))
    · exact fire_of_act (by rwa [Function.update_of_ne (Ne.symm hab)])
    · rw [Function.update_comm hab]
      exact fire_of_act (by rwa [Function.update_of_ne hab])

theorem Net.Lawful.confluent (hW : W.Lawful) (ht : W.Steps cap s t) (hu : W.Steps cap s u) :
    ∃ v, W.Steps cap t v ∧ W.Steps cap u v := by
  refine Relation.church_rosser (fun s t u hst hsu => ?_) ht hu
  rcases hW.diamond hst hsu with rfl | htu | hut | ⟨v, htv, huv⟩
  · exact ⟨t, .refl, .refl⟩
  · exact ⟨u, .single htu, .refl⟩
  · exact ⟨t, .refl, .single hut⟩
  · exact ⟨v, .single htv, .single huv⟩

/-- More room allows every step that less allows. -/
theorem fire_mono {cap' : κ → ℕ∞} (hc : cap ≤ cap') (h : W.fire cap a s = some t) : W.fire cap' a s = some t := by
  obtain ⟨y, l, ha, rfl⟩ := fire_eq h
  refine fire_of_act (f := s.node) (l := s.link) ?_
  cases a with
  | run i => exact ha
  | push c n =>
    obtain ⟨hn, hroom, bs, hx, rfl⟩ := act_push.mp ha
    exact act_push.mpr ⟨hn, le_trans hroom (hc c), bs, hx, rfl⟩
  | pull c n => exact ha

theorem steps_mono {cap' : κ → ℕ∞} (hc : cap ≤ cap') (h : W.Steps cap s t) : W.Steps cap' s t := by
  have hle : W.Step cap ≤ W.Step cap' := fun s t ⟨a, ha⟩ => ⟨a, fire_mono hc ha⟩
  exact Relation.ReflTransGen.mono hle s t h

theorem Net.Final.eq (h : W.Final s) (hst : W.Steps cap s t) : t = s := by
  rcases Relation.ReflTransGen.cases_head hst with rfl | ⟨u, ⟨a, ha⟩, -⟩
  · rfl
  · exact absurd ⟨a, fire_mono le_top ha⟩ (h u)

/-- Where a run can end, every run of the network can still end. -/
theorem Net.Lawful.reaches_final (hW : W.Lawful) (hf : W.Final v) (hv : W.Steps cap s v) (ht : W.Steps cap s t) :
    W.Steps cap t v := by
  obtain ⟨u, htu, hvu⟩ := hW.confluent ht hv
  rwa [hf.eq hvu] at htu

/-- A network ends in one state, however its streams are cut, whatever its
links hold and whoever goes first. -/
theorem Net.Lawful.final_unique (hW : W.Lawful) (hv : W.Steps ⊤ s v) (hfv : W.Final v) (hu : W.Steps ⊤ s u)
    (hfu : W.Final u) : u = v := by
  have huv := hW.reaches_final hfv hv hu
  exact (hfu.eq huv).symm

/-- Where every process can go on by itself, all can in turn. -/
theorem steps_run_all [Fintype ι] {f : ι → X} {g : ι → X} (h : ∀ i, W.run i (f i) = some (g i)) :
    W.Steps cap ⟨f, l⟩ ⟨g, l⟩ := by
  have hsome : ∀ F : Finset ι, W.Steps cap ⟨f, l⟩ ⟨fun i => if i ∈ F then g i else f i, l⟩ := by
    intro F
    induction F using Finset.induction_on with
    | empty => exact .refl
    | insert i F hi ih =>
      refine ih.tail ⟨.run i, ?_⟩
      have hrun : W.run i (if i ∈ F then g i else f i) = some (g i) := by rw [if_neg hi]; exact h i
      rw [fire_of_act (act_run.mpr ⟨hrun, rfl⟩)]
      congr 2
      funext j
      by_cases hj : j = i
      · subst hj
        simp [Net.site]
      · simp [Net.site, hj]
  have hall := hsome Finset.univ
  simpa using hall

end Confluence

end RdmaInfra.Kahn
