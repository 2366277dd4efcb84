/-
Two programs that talk over connections, each a stream of bytes either way.

A program is what it does next: send, receive, close or return. A `recv` of
`n` bytes ends with them, or with nothing where the other side has closed the
connection before sending as many. A connection's streams are cut anywhere and
hold any positive number of bytes.

Where one program's next send is the other's next receive, again and again
until both return (`Meets`), the two cannot get in each other's way: they end
so in every run, and every run gets there (`Meets.returns`, `Meets.completes`).
-/
import RdmaInfra.Kahn

namespace RdmaInfra.Duplex

/-- A program over the connections `χ`, which returns a `ρ`. -/
inductive Proc (χ β ρ : Type)
  | ret (r : ρ)
  | send (c : χ) (bs : List β) (next : Proc χ β ρ)
  | recv (c : χ) (n : Nat) (next : Option (List β) → Proc χ β ρ)
  | close (c : χ) (next : Proc χ β ρ)

variable {χ β ρ σ : Type}

namespace Proc

protected def bind : Proc χ β ρ → (ρ → Proc χ β σ) → Proc χ β σ
  | .ret r, f => f r
  | .send c bs next, f => .send c bs (next.bind f)
  | .recv c n next, f => .recv c n fun bs => (next bs).bind f
  | .close c next, f => .close c (next.bind f)

instance : Monad (Proc χ β) where
  pure := .ret
  bind := Proc.bind

section Bind

variable {c : χ} {f : ρ → Proc χ β σ}

@[simp] theorem ret_bind {r : ρ} : (ret r : Proc χ β ρ) >>= f = f r := rfl

@[simp] theorem pure_bind {r : ρ} : (pure r : Proc χ β ρ) >>= f = f r := rfl

@[simp] theorem send_bind {bs : List β} {p : Proc χ β ρ} : send c bs p >>= f = send c bs (p >>= f) := rfl

@[simp] theorem recv_bind {n : Nat} {k : Option (List β) → Proc χ β ρ} :
    recv c n k >>= f = recv c n fun bs => k bs >>= f := rfl

@[simp] theorem close_bind {p : Proc χ β ρ} : close c p >>= f = close c (p >>= f) := rfl

end Bind

end Proc

/-- A program on its way: in a `recv`, with what it has got so far. -/
structure Side (χ β ρ : Type) where
  proc : Proc χ β ρ
  got : List β

/-- The bytes of a piece of a stream, and whether it ends in the mark `none`
that closes the stream. -/
def cut : List (Option β) → Option (List β × Bool)
  | [] => some ([], false)
  | [none] => some ([], true)
  | none :: _ :: _ => none
  | some b :: bs => (cut bs).map fun (ds, fin) => (b :: ds, fin)

variable [DecidableEq χ]

namespace Side

def run (x : Side χ β ρ) : Option (Side χ β ρ) :=
  match x.proc with
  | .send _ [] next => some ⟨next, []⟩
  | .recv _ n next => if x.got.length = n then some ⟨next (some x.got), []⟩ else none
  | _ => none

def push (c : χ) (k : Nat) (x : Side χ β ρ) : Option (Side χ β ρ × List (Option β)) :=
  match x.proc with
  | .send c' bs next =>
    if c = c' ∧ k ≤ bs.length then some (⟨.send c' (bs.drop k) next, []⟩, (bs.take k).map some) else none
  | .close c' next => if c = c' ∧ k = 1 then some (⟨next, []⟩, [none]) else none
  | _ => none

def pull (c : χ) (bs : List (Option β)) (x : Side χ β ρ) : Option (Side χ β ρ) :=
  match x.proc with
  | .recv c' n next =>
    if c = c' ∧ x.got.length + bs.length ≤ n then
      match cut bs with
      | some (ds, false) => some ⟨.recv c' n next, x.got ++ ds⟩
      | some (_, true) => some ⟨next none, []⟩
      | none => none
    else none
  | _ => none

end Side

abbrev Net (χ β ρ : Type) := Kahn.Net Bool (χ × Bool) (Side χ β ρ) (Option β)

abbrev State (χ β ρ : Type) := Kahn.State Bool (χ × Bool) (Side χ β ρ) (Option β)

/-- The two sides, `false` and `true`, of the connections. -/
def net : Net χ β ρ where
  src c := c.2
  dst c := !c.2
  run _ x := x.run
  push c := Side.push c.1
  pull c := Side.pull c.1

/-! ## Programs are sequential -/

section Cut

variable {bs cs : List (Option β)} {ds : List β}

/-- A stream goes on after a piece that does not close it, -/
theorem cut_append_open (h : cut bs = some (ds, false)) :
    cut (bs ++ cs) = (cut cs).map fun (es, fin) => (ds ++ es, fin) := by
  induction bs using cut.induct generalizing ds with
  | case1 =>
    cases h
    simp
  | case2 => simp [cut] at h
  | case3 => simp [cut] at h
  | case4 b bs ih =>
    obtain ⟨⟨es, fin⟩, hes, heq⟩ := Option.map_eq_some_iff.mp h
    cases heq
    rw [List.cons_append, cut, ih hes, Option.map_map]
    rfl

/-- and nowhere else. -/
theorem cut_append_closed (h : cut bs = some (ds, true)) (hc : cs ≠ []) : cut (bs ++ cs) = none := by
  induction bs using cut.induct generalizing ds with
  | case1 => simp [cut] at h
  | case2 =>
    cases cs with
    | nil => exact absurd rfl hc
    | cons c cs => rfl
  | case3 => simp [cut] at h
  | case4 b bs ih =>
    obtain ⟨⟨es, fin⟩, hes, heq⟩ := Option.map_eq_some_iff.mp h
    cases heq
    rw [List.cons_append, cut, ih hes]
    rfl

theorem cut_length {fin : Bool} (h : cut bs = some (ds, fin)) : bs.length = ds.length + fin.toNat := by
  induction bs using cut.induct generalizing ds with
  | case1 =>
    cases h
    rfl
  | case2 =>
    cases h
    rfl
  | case3 => simp [cut] at h
  | case4 b bs ih =>
    obtain ⟨⟨es, fin⟩, hes, heq⟩ := Option.map_eq_some_iff.mp h
    cases heq
    rw [List.length_cons, ih hes, List.length_cons]
    omega

end Cut

section Lawful

variable {x y z : Side χ β ρ} {c d : χ} {n m : Nat} {bs cs : List (Option β)}

/-- Everything a push can be. -/
theorem push_cases (h : x.push c n = some (y, bs)) :
    (∃ es next, x.proc = .send c es next ∧ n ≤ es.length ∧ y = ⟨.send c (es.drop n) next, []⟩ ∧
      bs = (es.take n).map some) ∨
    ∃ next, x.proc = .close c next ∧ n = 1 ∧ y = ⟨next, []⟩ ∧ bs = [none] := by
  unfold Side.push at h
  split at h
  next c' es next hp =>
    split at h
    next hc =>
      obtain ⟨rfl, hle⟩ := hc
      cases h
      exact .inl ⟨es, next, hp, hle, rfl, rfl⟩
    · cases h
  next c' next hp =>
    split at h
    next hc =>
      obtain ⟨rfl, hn⟩ := hc
      cases h
      exact .inr ⟨next, hp, hn, rfl, rfl⟩
    · cases h
  · cases h

/-- Everything a pull can be. -/
theorem pull_cases (h : x.pull c bs = some y) :
    ∃ n next, x.proc = .recv c n next ∧ x.got.length + bs.length ≤ n ∧
      ((∃ ds, cut bs = some (ds, false) ∧ y = ⟨.recv c n next, x.got ++ ds⟩) ∨
        ∃ ds, cut bs = some (ds, true) ∧ y = ⟨next none, []⟩) := by
  unfold Side.pull at h
  split at h
  next c' n next hp =>
    split at h
    next hc =>
      obtain ⟨rfl, hle⟩ := hc
      refine ⟨n, next, hp, hle, ?_⟩
      split at h
      next ds hds =>
        cases h
        exact .inl ⟨ds, hds, rfl⟩
      next ds hds =>
        cases h
        exact .inr ⟨ds, hds, rfl⟩
      · cases h
    · cases h
  · cases h

omit [DecidableEq χ] in
theorem run_cases (h : x.run = some y) :
    (∃ c next, x.proc = .send c [] next ∧ y = ⟨next, []⟩) ∨
      ∃ c next, x.proc = .recv c x.got.length next ∧ y = ⟨next (some x.got), []⟩ := by
  unfold Side.run at h
  split at h
  next c next hp =>
    cases h
    exact .inl ⟨c, next, hp, rfl⟩
  next c n next hp =>
    split at h
    next hn =>
      cases h
      exact .inr ⟨c, next, hn ▸ hp, rfl⟩
    · cases h
  · cases h

theorem run_not_push {p : Side χ β ρ × List (Option β)} (hr : x.run = some y) (hn : 0 < n) : x.push c n ≠ some p := by
  intro hp
  obtain ⟨z, bs⟩ := p
  obtain ⟨c', next, hx, -⟩ | ⟨c', next, hx, -⟩ := run_cases hr
  · obtain ⟨es, next', hx', hle, -⟩ | ⟨next', hx', -⟩ := push_cases hp
    · rw [hx] at hx'
      cases hx'
      rw [List.length_nil] at hle
      omega
    · rw [hx] at hx'
      cases hx'
  · obtain ⟨es, next', hx', -⟩ | ⟨next', hx', -⟩ := push_cases hp
    · rw [hx] at hx'
      cases hx'
    · rw [hx] at hx'
      cases hx'

theorem run_not_pull (hr : x.run = some y) (hb : bs ≠ []) : x.pull c bs ≠ some z := by
  intro hp
  have hlen := List.length_pos_iff.mpr hb
  obtain ⟨n, next, hx, hle, -⟩ := pull_cases hp
  obtain ⟨c', next', hx', -⟩ | ⟨c', next', hx', -⟩ := run_cases hr
  · rw [hx] at hx'
    cases hx'
  · rw [hx] at hx'
    cases hx'
    omega

theorem push_not_pull {p : Side χ β ρ × List (Option β)} (hq : x.push c n = some p) : x.pull d bs ≠ some z := by
  intro hp
  obtain ⟨y, cs⟩ := p
  obtain ⟨n, next, hx, -⟩ := pull_cases hp
  obtain ⟨es, next', hx', -⟩ | ⟨next', hx', -⟩ := push_cases hq
  · rw [hx] at hx'
    cases hx'
  · rw [hx] at hx'
    cases hx'

/-- The connection a program sends on or closes. -/
theorem push_conn {p q : Side χ β ρ × List (Option β)} (hp : x.push c n = some p) (hq : x.push d m = some q) : c = d := by
  obtain ⟨y, bs⟩ := p
  obtain ⟨z, cs⟩ := q
  obtain ⟨es, next, hx, -⟩ | ⟨next, hx, -⟩ := push_cases hp
  · obtain ⟨es', next', hx', -⟩ | ⟨next', hx', -⟩ := push_cases hq
    · rw [hx] at hx'
      cases hx'
      rfl
    · rw [hx] at hx'
      cases hx'
  · obtain ⟨es', next', hx', -⟩ | ⟨next', hx', -⟩ := push_cases hq
    · rw [hx] at hx'
      cases hx'
    · rw [hx] at hx'
      cases hx'
      rfl

theorem pull_conn (hp : x.pull c bs = some y) (hq : x.pull d cs = some z) : c = d := by
  obtain ⟨n, next, hx, -⟩ := pull_cases hp
  obtain ⟨n', next', hx', -⟩ := pull_cases hq
  rw [hx] at hx'
  cases hx'
  rfl

theorem push_add (hn : 0 < n) (hm : 0 < m) (hp : x.push c n = some (y, bs)) (hq : x.push c (n + m) = some (z, cs)) :
    bs.length = n ∧ ∃ ds, y.push c m = some (z, ds) ∧ cs = bs ++ ds := by
  obtain ⟨es, next, hx, hle, rfl, rfl⟩ | ⟨next, hx, rfl, -⟩ := push_cases hp
  · obtain ⟨es', next', hx', hle', rfl, rfl⟩ | ⟨next', hx', -⟩ := push_cases hq
    · rw [hx] at hx'
      cases hx'
      refine ⟨by rw [List.length_map, List.length_take]; omega, ((es.drop n).take m).map some, ?_, ?_⟩
      · have hroom : m ≤ (es.drop n).length := by rw [List.length_drop]; omega
        simp only [Side.push, true_and, if_pos hroom, List.drop_drop]
      · rw [List.take_add, List.map_append]
    · rw [hx] at hx'
      cases hx'
  · obtain ⟨es', next', hx', -⟩ | ⟨next', -, hone, -⟩ := push_cases hq
    · rw [hx] at hx'
      cases hx'
    · omega

theorem pull_append (hc : cs ≠ []) (hp : x.pull c bs = some y) (hq : x.pull c (bs ++ cs) = some z) :
    y.pull c cs = some z := by
  obtain ⟨n, next, hx, hle, ⟨ds, hds, rfl⟩ | ⟨ds, hds, rfl⟩⟩ := pull_cases hp
  · obtain ⟨n', next', hx', hle', hz⟩ := pull_cases hq
    rw [hx] at hx'
    cases hx'
    rw [cut_append_open hds] at hz
    have hlen := cut_length hds
    rw [List.length_append] at hle'
    have hroom : (x.got ++ ds).length + cs.length ≤ n := by rw [List.length_append]; omega
    obtain ⟨es, hes, rfl⟩ | ⟨es, hes, rfl⟩ := hz
    · obtain ⟨⟨es', fin⟩, hcut, heq⟩ := Option.map_eq_some_iff.mp hes
      cases heq
      simp only [Side.pull, true_and, if_pos hroom, hcut, List.append_assoc]
    · obtain ⟨⟨es', fin⟩, hcut, heq⟩ := Option.map_eq_some_iff.mp hes
      cases heq
      simp only [Side.pull, true_and, if_pos hroom, hcut]
  · obtain ⟨n', next', -, -, hz⟩ := pull_cases hq
    rw [cut_append_closed hds hc] at hz
    simp at hz

theorem net_lawful : (net : Net χ β ρ).Lawful where
  run_push := fun hr hn => run_not_push hr hn
  run_pull := fun hr hb => run_not_pull hr hb
  push_pull := fun _ _ _ hp => push_not_pull hp
  push_push := fun hcd _ _ hp hq => Prod.ext (push_conn hp hq) hcd
  pull_pull := fun hcd _ _ hp hq => Prod.ext (pull_conn hp hq) (Bool.not_inj hcd)
  push_add := push_add
  pull_append := pull_append

end Lawful

/-! ## Programs that meet -/

/-- The program on side `b` and the one on the other side, where the marks of
`fin` are under way, send and receive in turn until both return. -/
inductive Meets : (χ × Bool → Bool) → Bool → Proc χ β ρ → Proc χ β ρ → ρ → ρ → Prop
  | ret {fin b r s} : Meets fin b (.ret r) (.ret s) r s
  | send {fin b c bs p k r s} : fin (c, b) = false → Meets fin b p (k (some bs)) r s →
      Meets fin b (.send c bs p) (.recv c bs.length k) r s
  | close {fin b c p q r s} : fin (c, b) = false → Meets (Function.update fin (c, b) true) b p q r s →
      Meets fin b (.close c p) q r s
  | eof {fin b c n k q r s} : fin (c, !b) = true → 0 < n → Meets (Function.update fin (c, !b) false) b (k none) q r s →
      Meets fin b (.recv c n k) q r s
  | swap {fin b p q r s} : Meets fin (!b) q p s r → Meets fin b p q r s

section Rules

variable {fin : χ × Bool → Bool} {b : Bool} {c : χ} {bs : List β} {n : Nat} {p q : Proc χ β ρ}
  {k : Option (List β) → Proc χ β ρ} {r s : ρ}

theorem Meets.message (hf : fin (c, b) = false) (hn : bs.length = n) (h : Meets fin b p (k (some bs)) r s) :
    Meets fin b (.send c bs p) (.recv c n k) r s := by
  subst hn
  exact .send hf h

/-- The same, seen from the side that receives. -/
theorem Meets.reply (hf : fin (c, !b) = false) (hn : bs.length = n) (h : Meets fin b (k (some bs)) p r s) :
    Meets fin b (.recv c n k) (.send c bs p) r s := by
  refine .swap (.message hf hn (.swap ?_))
  rwa [Bool.not_not]

/-- The other side closes. -/
theorem Meets.closed (hf : fin (c, !b) = false) (h : Meets (Function.update fin (c, !b) true) b p q r s) :
    Meets fin b p (.close c q) r s := by
  refine .swap (.close hf (.swap ?_))
  rwa [Bool.not_not]

end Rules

/-- `x` on side `b`, `y` on the other. -/
def pair (b : Bool) (x y : Side χ β ρ) : Bool → Side χ β ρ := fun i => if i = b then x else y

/-- The streams with nothing under way but the marks of `fin`. -/
def fins (fin : χ × Bool → Bool) : χ × Bool → List (Option β) := fun c => if fin c then [none] else []

/-- Both programs at their start, over fresh connections. -/
def start (b : Bool) (p q : Proc χ β ρ) : State χ β ρ :=
  ⟨pair b ⟨p, []⟩ ⟨q, []⟩, fins fun _ => false⟩

section Pair

variable {b : Bool} {x y x' y' : Side χ β ρ}

omit [DecidableEq χ]

@[simp] theorem pair_self : pair b x y b = x := if_pos rfl

@[simp] theorem pair_not : pair b x y (!b) = y := if_neg (by simp)

theorem pair_swap : pair (!b) x y = pair b y x := by
  funext i
  cases b <;> cases i <;> rfl

@[simp] theorem update_pair : Function.update (pair b x y) b x' = pair b x' y := by
  funext i
  cases b <;> cases i <;> rfl

@[simp] theorem update_pair_not : Function.update (pair b x y) (!b) y' = pair b x y' := by
  funext i
  cases b <;> cases i <;> rfl

end Pair

section Steps

variable {b : Bool} {cap : χ × Bool → ℕ∞} {x y x' y' : Side χ β ρ} {l : χ × Bool → List (Option β)} {c : χ}

theorem step_run (h : x.run = some x') : net.Step cap ⟨pair b x y, l⟩ ⟨pair b x' y, l⟩ := by
  refine ⟨.run b, ?_⟩
  rw [Kahn.fire_of_act (y := x') (Kahn.act_run.mpr ⟨by simpa [net, Kahn.Net.site] using h, rfl⟩)]
  simp [Kahn.Net.site]

theorem step_run_other (h : y.run = some y') : net.Step cap ⟨pair b x y, l⟩ ⟨pair b x y', l⟩ := by
  have hs : net.Step cap ⟨pair (!b) y x, l⟩ ⟨pair (!b) y' x, l⟩ := step_run h
  rwa [pair_swap, pair_swap] at hs

/-- One byte, or the mark, goes into an empty stream. -/
theorem step_push {t : Option β} (h : x.push c 1 = some (x', [t])) (hcap : 1 ≤ cap (c, b)) (hl : l (c, b) = []) :
    net.Step cap ⟨pair b x y, l⟩ ⟨pair b x' y, Function.update l (c, b) [t]⟩ := by
  refine ⟨.push (c, b) 1, ?_⟩
  have hact : (net : Net χ β ρ).act cap (.push (c, b) 1) (pair b x y b) l =
      some (x', Function.update l (c, b) (l (c, b) ++ [t])) := by
    refine Kahn.act_push.mpr ⟨Nat.one_pos, ?_, [t], ?_, rfl⟩
    · rw [hl]
      exact hcap
    · rw [pair_self]
      exact h
  rw [Kahn.fire_of_act hact, hl]
  simp [Kahn.Net.site, net]

/-- And out of it, on the other side. -/
theorem step_pull {t : Option β} (h : y.pull c [t] = some y') :
    net.Step cap ⟨pair b x y, Function.update l (c, b) [t]⟩ ⟨pair b x y', Function.update l (c, b) []⟩ := by
  refine ⟨.pull (c, b) 1, ?_⟩
  have hact : (net : Net χ β ρ).act cap (.pull (c, b) 1) (pair b x y (!b))
      (Function.update l (c, b) [t]) = some (y', Function.update l (c, b) []) := by
    refine Kahn.act_pull.mpr ⟨Nat.one_pos, by simp, ?_, by simp⟩
    rw [pair_not, Function.update_self]
    exact h
  rw [Kahn.fire_of_act hact]
  simp [Kahn.Net.site, net]

/-- A message, byte by byte. -/
theorem steps_message {p : Proc χ β ρ} {k : Option (List β) → Proc χ β ρ} {n : Nat} (hcap : 1 ≤ cap (c, b))
    (hl : l (c, b) = []) (bs : List β) :
    ∀ got : List β, got.length + bs.length = n →
      net.Steps cap ⟨pair b ⟨.send c bs p, []⟩ ⟨.recv c n k, got⟩, l⟩ ⟨pair b ⟨p, []⟩ ⟨k (some (got ++ bs)), []⟩, l⟩ := by
  induction bs with
  | nil =>
    intro got hn
    have h1 : net.Step cap ⟨pair b ⟨.send c [] p, []⟩ ⟨.recv c n k, got⟩, l⟩ ⟨pair b ⟨p, []⟩ ⟨.recv c n k, got⟩, l⟩ :=
      step_run rfl
    have h2 : net.Step cap ⟨pair b ⟨p, []⟩ ⟨.recv c n k, got⟩, l⟩ ⟨pair b ⟨p, []⟩ ⟨k (some (got ++ [])), []⟩, l⟩ := by
      refine step_run_other ?_
      rw [List.append_nil]
      exact if_pos hn
    exact (Relation.ReflTransGen.single h1).tail h2
  | cons x bs ih =>
    intro got hn
    rw [List.length_cons] at hn
    have h1 : net.Step cap ⟨pair b ⟨.send c (x :: bs) p, []⟩ ⟨.recv c n k, got⟩, l⟩
        ⟨pair b ⟨.send c bs p, []⟩ ⟨.recv c n k, got⟩, Function.update l (c, b) [some x]⟩ :=
      step_push (by simp [Side.push]) hcap hl
    have h2 : net.Step cap ⟨pair b ⟨.send c bs p, []⟩ ⟨.recv c n k, got⟩, Function.update l (c, b) [some x]⟩
        ⟨pair b ⟨.send c bs p, []⟩ ⟨.recv c n k, got ++ [x]⟩, Function.update l (c, b) []⟩ := by
      refine step_pull ?_
      have hroom : got.length + 1 ≤ n := by omega
      simp [Side.pull, hroom, cut]
    have hsame : Function.update l (c, b) [] = l := by rw [← hl, Function.update_eq_self]
    rw [hsame] at h2
    have hrest := ih (got ++ [x]) (by rw [List.length_append, List.length_singleton]; omega)
    rw [List.append_assoc, List.singleton_append] at hrest
    exact (Relation.ReflTransGen.single h1).trans ((Relation.ReflTransGen.single h2).trans hrest)

theorem fins_update {fin : χ × Bool → Bool} {e : χ × Bool} {v : Bool} :
    Function.update (fins fin : χ × Bool → List (Option β)) e (if v then [none] else []) =
      fins (Function.update fin e v) := by
  funext d
  by_cases hd : d = e
  · subst hd
    simp [fins]
  · simp [fins, hd]

/-- Programs that meet have a run in which they do. -/
theorem Meets.steps {fin : χ × Bool → Bool} {p q : Proc χ β ρ} {r s : ρ} (h : Meets fin b p q r s) (hcap : ∀ c, 1 ≤ cap c) :
    ∃ fin', net.Steps cap ⟨pair b ⟨p, []⟩ ⟨q, []⟩, fins fin⟩ ⟨pair b ⟨.ret r, []⟩ ⟨.ret s, []⟩, fins fin'⟩ := by
  induction h with
  | @ret fin => exact ⟨fin, .refl⟩
  | @send fin b c bs p k r s hf _ ih =>
    obtain ⟨fin', hs⟩ := ih
    have hmsg := steps_message (p := p) (k := k) (n := bs.length) (l := fins fin) (hcap (c, b)) (by simp [fins, hf]) bs []
      (Nat.zero_add _)
    exact ⟨fin', hmsg.trans hs⟩
  | @close fin b c p q r s hf _ ih =>
    obtain ⟨fin', hs⟩ := ih
    have hstep : net.Step cap ⟨pair b ⟨.close c p, []⟩ ⟨q, []⟩, fins fin⟩
        ⟨pair b ⟨p, []⟩ ⟨q, []⟩, Function.update (fins fin) (c, b) [none]⟩ :=
      step_push (by simp [Side.push]) (hcap (c, b)) (by simp [fins, hf])
    rw [show ([none] : List (Option β)) = if true then [none] else [] from rfl, fins_update] at hstep
    exact ⟨fin', (Relation.ReflTransGen.single hstep).trans hs⟩
  | @eof fin b c n k q r s hf hn _ ih =>
    obtain ⟨fin', hs⟩ := ih
    have hstep : net.Step cap ⟨pair (!b) ⟨q, []⟩ ⟨.recv c n k, []⟩, Function.update (fins fin) (c, !b) [none]⟩
        ⟨pair (!b) ⟨q, []⟩ ⟨k none, []⟩, Function.update (fins fin) (c, !b) []⟩ := by
      refine step_pull ?_
      have hroom : 1 ≤ n := hn
      simp [Side.pull, hroom, cut]
    have hlink : Function.update (fins fin : χ × Bool → List (Option β)) (c, !b) [none] = fins fin := by
      rw [show ([none] : List (Option β)) = if true then [none] else [] from rfl, fins_update, ← hf,
        Function.update_eq_self]
    rw [hlink, show ([] : List (Option β)) = if false then [none] else [] from rfl, fins_update, pair_swap,
      pair_swap] at hstep
    exact ⟨fin', (Relation.ReflTransGen.single hstep).trans hs⟩
  | swap _ ih =>
    obtain ⟨fin', hs⟩ := ih
    rw [pair_swap, pair_swap] at hs
    exact ⟨fin', hs⟩

/-- A program that has returned takes no step. -/
theorem ret_idle {a : Kahn.Action Bool (χ × Bool)} {l' : χ × Bool → List (Option β)} {r : ρ}
    (h : net.act cap a x l = some (y, l')) : x.proc ≠ .ret r := by
  intro hr
  cases a with
  | run j =>
    obtain ⟨hrun, -⟩ := Kahn.act_run.mp h
    obtain ⟨c, next, hx, -⟩ | ⟨c, next, hx, -⟩ := run_cases hrun
    · cases hr.symm.trans hx
    · cases hr.symm.trans hx
  | push c n =>
    obtain ⟨-, -, bs, hpush, -⟩ := Kahn.act_push.mp h
    obtain ⟨es, next, hx, -⟩ | ⟨next, hx, -⟩ := push_cases hpush
    · cases hr.symm.trans hx
    · cases hr.symm.trans hx
  | pull c n =>
    obtain ⟨-, -, hpull, -⟩ := Kahn.act_pull.mp h
    obtain ⟨m, next, hx, -⟩ := pull_cases hpull
    cases hr.symm.trans hx

theorem ret_step {s t : State χ β ρ} (h : net.Step cap s t) {i : Bool} {r : ρ}
    (hr : (s.node i).proc = .ret r) : (t.node i).proc = .ret r := by
  obtain ⟨a, ha⟩ := h
  obtain ⟨y, l, hact, rfl⟩ := Kahn.fire_eq ha
  have hi : i ≠ (net : Net χ β ρ).site a := by
    intro hi
    subst hi
    exact ret_idle hact hr
  simpa [Function.update_of_ne hi] using hr

/-- A program that has returned stays so. -/
theorem ret_steps {s t : State χ β ρ} (h : net.Steps cap s t) {i : Bool} {r : ρ}
    (hr : (s.node i).proc = .ret r) : (t.node i).proc = .ret r := by
  induction h with
  | refl => exact hr
  | tail _ hst ih => exact ret_step hst ih

theorem final_of_ret {s : State χ β ρ} (h : ∀ i, ∃ r, (s.node i).proc = .ret r) :
    net.Final s := by
  intro t ht
  obtain ⟨a, ha⟩ := ht
  obtain ⟨y, l, hact, -⟩ := Kahn.fire_eq ha
  obtain ⟨r, hr⟩ := h ((net : Net χ β ρ).site a)
  exact ret_idle hact hr

end Steps

section Meets

variable {b : Bool} {cap : χ × Bool → ℕ∞} {p q : Proc χ β ρ} {r s : ρ} {t : State χ β ρ}

theorem final_pair {l : χ × Bool → List (Option β)} : net.Final ⟨pair b ⟨.ret r, []⟩ ⟨.ret s, []⟩, l⟩ := by
  refine final_of_ret fun i => ?_
  by_cases hi : i = b
  · exact ⟨r, by simp [pair, hi]⟩
  · exact ⟨s, by simp [pair, hi]⟩

/-- Over streams that hold a byte, programs that meet end from wherever they
are. -/
theorem Meets.completes (h : Meets (fun _ => false) b p q r s) (hcap : ∀ c, 1 ≤ cap c)
    (ht : net.Steps cap (start b p q) t) :
    ∃ v, net.Steps cap t v ∧ (v.node b).proc = .ret r ∧ (v.node (!b)).proc = .ret s := by
  obtain ⟨fin, hv⟩ := h.steps hcap
  exact ⟨_, net_lawful.reaches_final final_pair hv ht, by simp, by simp⟩

/-- Whatever the streams hold, a program that meets another returns nothing
else. -/
theorem Meets.returns (h : Meets (fun _ => false) b p q r s) (ht : net.Steps cap (start b p q) t) :
    (∀ r', (t.node b).proc = .ret r' → r' = r) ∧ ∀ s', (t.node (!b)).proc = .ret s' → s' = s := by
  have hcap : ∀ c, 1 ≤ (⊤ : χ × Bool → ℕ∞) c := fun _ => le_top
  obtain ⟨v, hv, hb, hnb⟩ := h.completes hcap (Kahn.steps_mono le_top ht)
  constructor
  · intro r' hr
    cases (ret_steps hv hr).symm.trans hb
    rfl
  · intro s' hs
    cases (ret_steps hv hs).symm.trans hnb
    rfl

end Meets

end RdmaInfra.Duplex
