import C2Pool.Lib.Encoding
import C2Pool.V37.DropsDue

/-! # What a leaf says

The leaf bytes of the owed-event log determine the event: the kind, the block
id, the height, and for a found block every part of its row but the cut.  The
counts of the maps are 32-bit words, so the rows must be fewer than 2^32, and
a payout reference is at most 255 bytes long.
-/

namespace C2Pool.V37

open List

theorem length_bytesLE (n x : Nat) : (bytesLE n x).length = n := by
  simp [bytesLE]

theorem bytesLE_succ (n x : Nat) : bytesLE (n + 1) x = Fin.ofNat 256 x :: bytesLE n (x / 256) := by
  unfold bytesLE
  rw [range_succ_eq_map, map_cons, map_map]
  congr 1
  apply map_congr_left
  intro i _
  simp only [Function.comp_apply, Nat.shiftRight_eq_div_pow]
  rw [Nat.div_div_eq_div_mul, show 8 * i.succ = 8 + 8 * i by omega, pow_add,
    show 2 ^ 8 = 256 by decide]

theorem bytesLE_injective {n x y : Nat} (hx : x < 256 ^ n) (hy : y < 256 ^ n)
    (heq : bytesLE n x = bytesLE n y) : x = y := by
  induction n generalizing x y with
  | zero =>
    omega
  | succ n ih =>
    rw [bytesLE_succ, bytesLE_succ, List.cons.injEq] at heq
    have hlow : x % 256 = y % 256 := congrArg Fin.val heq.1
    have hhigh := ih (Nat.div_lt_of_lt_mul (by omega)) (Nat.div_lt_of_lt_mul (by omega)) heq.2
    omega

theorem delimits_bytesLE (n : Nat) : Delimits (bytesLE n) (· < 256 ^ n) :=
  .of_width (length_bytesLE n) fun _ _ hx hy heq => bytesLE_injective hx hy heq

theorem delimits_putU32 : Delimits putU32 (· < 2 ^ 32) := by
  have h := delimits_bytesLE 4
  rwa [show 256 ^ 4 = 2 ^ 32 by decide] at h

theorem delimits_putU64 : Delimits putU64 (· < 2 ^ 64) := by
  have h := delimits_bytesLE 8
  rwa [show 256 ^ 8 = 2 ^ 64 by decide] at h

theorem delimits_u64 : Delimits (fun x : U64 => putU64 x.val) (fun _ => True) :=
  delimits_putU64.comap (fun _ _ _ _ h => Fin.ext h) fun x _ => x.isLt

theorem delimits_putI64 : Delimits putI64 InRange := by
  have hword : ∀ a b : Int, InRange a → InRange b →
      (a % 2 ^ 64).toNat = (b % 2 ^ 64).toNat → a = b := by
    intro a b ha hb heq
    unfold InRange at ha hb
    omega
  have hbound : ∀ a : Int, InRange a → (a % 2 ^ 64).toNat < 2 ^ 64 := by
    omega
  exact delimits_putU64.comap hword hbound

theorem toBytes_eq_reverse (x : Bytes32) : x.toBytes = (bytesLE 32 x.val).reverse := rfl

theorem length_toBytes (x : Bytes32) : x.toBytes.length = 32 := by
  rw [toBytes_eq_reverse, length_reverse, length_bytesLE]

theorem toBytes_injective : Function.Injective Bytes32.toBytes := by
  intro x y heq
  rw [toBytes_eq_reverse, toBytes_eq_reverse, reverse_inj] at heq
  apply Fin.ext
  apply bytesLE_injective _ _ heq
  · rw [show 256 ^ 32 = 2 ^ 256 by decide]
    exact x.isLt
  · rw [show 256 ^ 32 = 2 ^ 256 by decide]
    exact y.isLt

theorem delimits_toBytes : Delimits Bytes32.toBytes (fun _ => True) :=
  .of_width length_toBytes fun _ _ _ _ heq => toBytes_injective heq

def FitsAmap (m : Amounts) : Prop :=
  m.nonzero.entries.length < 2 ^ 32 ∧ ∀ e ∈ m.nonzero.entries, InRange e.2

theorem entries_injective {K V : Type} [LinearOrder K] {m m' : SortedMap K V}
    (h : m.entries = m'.entries) : m = m' := by
  cases m
  cases m'
  simp only [SortedMap.mk.injEq]
  exact h

variable {x y : List Byte}

theorem putAmap_delimits {m m' : Amounts} (hm : FitsAmap m) (hm' : FitsAmap m')
    (heq : putAmap m ++ x = putAmap m' ++ y) : m.nonzero = m'.nonzero ∧ x = y := by
  have hrow : Delimits (fun e : Bytes32 × Int => e.1.toBytes ++ putI64 e.2)
      (fun e => True ∧ InRange e.2) := delimits_toBytes.append delimits_putI64
  obtain ⟨hrows, htail⟩ := (delimits_putU32.counted hrow) _ _ x y
    ⟨hm.1, fun e he => ⟨trivial, hm.2 e he⟩⟩ ⟨hm'.1, fun e he => ⟨trivial, hm'.2 e he⟩⟩ heq
  exact ⟨entries_injective hrows, htail⟩

def FitsRegistry (m : DropsEnrolRegistry) : Prop :=
  m.entries.length < 2 ^ 64 ∧ ∀ e ∈ m.entries, e.2.ref.payload.length ≤ 255

theorem delimits_byte : Delimits (fun b : Byte => [b]) (fun _ => True) :=
  .of_width (fun _ => rfl) fun _ _ _ _ heq => (List.cons.inj heq).1

theorem delimits_short : Delimits
    (fun bs : List Byte => [Fin.ofNat 256 bs.length] ++ bs) (fun bs => bs.length ≤ 255) := by
  intro a b x y ha hb heq
  simp only [cons_append, List.cons.injEq] at heq
  have hlen : a.length = b.length := by
    have := congrArg Fin.val heq.1
    simp only [Fin.ofNat] at this
    omega
  exact append_inj heq.2 hlen

theorem putEnrolRecords_delimits {m m' : DropsEnrolRegistry} (hm : FitsRegistry m)
    (hm' : FitsRegistry m')
    (heq : putEnrolRecords m ++ x = putEnrolRecords m' ++ y) : m = m' ∧ x = y := by
  have hrow : Delimits (fun e : Bytes32 × DropsEnrolRec =>
      e.1.toBytes ++ putU64 e.2.eff.val ++ [e.2.ref.kind] ++
        [Fin.ofNat 256 e.2.ref.payload.length] ++ e.2.ref.payload)
      (fun e => e.2.ref.payload.length ≤ 255) := by
    intro a b x y ha hb heq
    obtain ⟨hkey, heq⟩ := delimits_toBytes _ _ _ _ trivial trivial heq
    obtain ⟨heff, heq⟩ := delimits_u64 _ _ _ _ trivial trivial heq
    obtain ⟨hkind, heq⟩ := delimits_byte _ _ _ _ trivial trivial heq
    have hshort := delimits_short a.2.ref.payload b.2.ref.payload x y ha hb
    obtain ⟨hpayload, htail⟩ := hshort heq
    obtain ⟨k', eff', kind', payload'⟩ := b
    cases hkey
    cases heff
    cases hkind
    cases hpayload
    exact ⟨rfl, htail⟩
  obtain ⟨hrows, htail⟩ := (delimits_putU64.counted hrow) _ _ x y hm hm' heq
  exact ⟨entries_injective hrows, htail⟩

def FitsWindow (w : DropsWindow) : Prop :=
  w.entries.length < 2 ^ 64 ∧ ∀ e ∈ w.entries, InRange e.2

theorem putDropsWindow_delimits {w w' : DropsWindow} (hw : FitsWindow w) (hw' : FitsWindow w')
    (heq : putDropsWindow w ++ x = putDropsWindow w' ++ y) : w = w' ∧ x = y := by
  have hrow : Delimits (fun e : DropsWindowKey × Int =>
      putU64 (ofLex e.1).1.val ++ putU64 (ofLex (ofLex e.1).2).1.val ++
        (ofLex (ofLex e.1).2).2.toBytes ++ putI64 e.2) (fun e => InRange e.2) := by
    intro a b x y ha hb heq
    obtain ⟨hc, heq⟩ := delimits_u64 _ _ _ _ trivial trivial heq
    obtain ⟨hn, heq⟩ := delimits_u64 _ _ _ _ trivial trivial heq
    obtain ⟨hkey, heq⟩ := delimits_toBytes _ _ _ _ trivial trivial heq
    obtain ⟨hval, htail⟩ := delimits_putI64 _ _ _ _ ha hb heq
    obtain ⟨⟨c', n', k'⟩, v'⟩ := b
    cases hc
    cases hn
    cases hkey
    cases hval
    exact ⟨rfl, htail⟩
  obtain ⟨hrows, htail⟩ := (delimits_putU64.counted hrow) _ _ x y hw hw' heq
  exact ⟨entries_injective hrows, htail⟩

theorem EvKind.code_injective : Function.Injective EvKind.code := by
  intro a b h
  cases a <;> cases b <;> first | rfl | cases h

theorem leafPayload_delimits {kind kind' : EvKind} {bid bid' : Bid} (hbid : bid.length < 2 ^ 32)
    (hbid' : bid'.length < 2 ^ 32) {bin bin' : U64}
    {credit payout settled credit' payout' settled' : Amounts}
    (heq : leafPayload kind bid bin credit payout settled ++ x =
      leafPayload kind' bid' bin' credit' payout' settled' ++ y) :
    kind = kind' ∧ bid = bid' ∧ bin = bin' ∧
      putAmap credit ++ (putAmap payout ++ (putAmap settled ++ x)) =
        putAmap credit' ++ (putAmap payout' ++ (putAmap settled' ++ y)) := by
  unfold leafPayload at heq
  simp only [append_assoc, append_cancel_left_eq] at heq
  obtain ⟨hkind, heq⟩ := delimits_byte _ _ _ _ trivial trivial heq
  obtain ⟨hlen, heq⟩ := delimits_putU32 _ _ _ _ hbid hbid' heq
  obtain ⟨hid, heq⟩ := append_inj heq hlen
  obtain ⟨hbin, heq⟩ := delimits_u64 _ _ _ _ trivial trivial heq
  exact ⟨EvKind.code_injective hkind, hid, hbin, heq⟩

namespace Pending

/-- The counts and the amounts of a row fit their words. -/
structure Fits (p : Pending) : Prop where
  credit : FitsAmap p.credit
  payout : FitsAmap p.payout
  deposit : FitsAmap p.deposit
  claimed : FitsAmap p.claimed
  enrolAdd : FitsRegistry p.enrolAdd
  window : FitsWindow p.window
  gross : p.gross.entries.length < 2 ^ 64

def core (p : Pending) : Pending := { p with cut := none }

/-- A row whose maps have no zero rows. -/
structure Normal (p : Pending) : Prop where
  credit : p.credit.nonzero = p.credit
  payout : p.payout.nonzero = p.payout
  deposit : p.deposit.nonzero = p.deposit
  claimed : p.claimed.nonzero = p.claimed

theorem normal_ofFound (rules : OwedLedgerRules) (args : FoundArgs) :
    (ofFound rules args).Normal := by
  have hidem : ∀ m : Amounts, m.nonzero.nonzero = m.nonzero :=
    fun m => Balances.nonzero_ext (Balances.balance_nonzero m)
  unfold ofFound
  refine ⟨hidem _, hidem _, ?_, ?_⟩
  · dsimp only
    split
    · split
      · exact hidem _
      · rfl
    · rfl
  dsimp only
  split
  · split
    · exact hidem _
    · rfl
  · rfl

def dropsSection (p : Pending) : List Byte :=
  if p.deposit ≠ ∅ ∨ p.claimed ≠ ∅ then putTag "V37U" ++ (putAmap p.deposit ++ putAmap p.claimed)
  else []

def enrolSection (p : Pending) : List Byte :=
  if p.enrolAdd ≠ ∅ then putTag "V37G" ++ putEnrolRecords p.enrolAdd else []

def windowSection (p : Pending) : List Byte :=
  if p.window ≠ ∅ then putTag "V37W" ++ putDropsWindow p.window else []

def laneSection (p : Pending) : List Byte :=
  if p.height ≠ 0 ∨ p.gross ≠ ∅ then
    putTag "V37Z" ++ (putU64 p.height.val ++ (putU64 p.gross.entries.length ++
      p.gross.entries.flatMap fun e => e.1.toBytes))
  else []

theorem leaf_eq (bid : Bid) (p : Pending) : p.leaf bid =
    foundPayload bid p.credit p.payout ++
      (p.dropsSection ++ (p.enrolSection ++ (p.windowSection ++ p.laneSection))) := by
  simp only [leaf, dropsSection, enrolSection, windowSection, laneSection, append_assoc]

/-- The tags of the sections, by number. -/
def tagBytes (c : Byte) : List Byte := [86, 51, 55, c]

theorem tag_not_prefix_nil (c : Byte) : ¬ tagBytes c <+: [] := by
  rintro ⟨y, hy⟩
  cases hy

variable {c : Byte} {p p' : Pending}

theorem tag_not_prefix {x : List Byte} {c' : Byte} (hne : c ≠ c') {cond : Prop} [Decidable cond]
    {e : List Byte} (hx : ¬ tagBytes c <+: x) :
    ¬ tagBytes c <+: (if cond then tagBytes c' ++ e else []) ++ x := by
  have htags : tagBytes c ≠ tagBytes c' := by
    intro heq
    unfold tagBytes at heq
    simp only [List.cons.injEq, true_and, and_true] at heq
    exact hne heq
  exact not_prefix_section (show (tagBytes c).length = (tagBytes c').length from rfl) htags hx

theorem not_prefix_lane (hne : c ≠ 90) (p : Pending) : ¬ tagBytes c <+: p.laneSection := by
  rw [← append_nil p.laneSection]
  unfold laneSection
  exact tag_not_prefix hne (tag_not_prefix_nil c)

theorem not_prefix_window (hne : c ≠ 87) (hne' : c ≠ 90) (p : Pending) :
    ¬ tagBytes c <+: p.windowSection ++ p.laneSection := by
  unfold windowSection
  exact tag_not_prefix hne (not_prefix_lane hne' p)

theorem not_prefix_enrol (p : Pending) :
    ¬ tagBytes 85 <+: p.enrolSection ++ (p.windowSection ++ p.laneSection) := by
  unfold enrolSection
  exact tag_not_prefix (by decide) (not_prefix_window (by decide) (by decide) p)

theorem dropsSection_delimits {x y : List Byte} (hp : p.Fits) (hp' : p'.Fits) (hn : p.Normal)
    (hn' : p'.Normal) (hx : ¬ tagBytes 85 <+: x) (hy : ¬ tagBytes 85 <+: y)
    (heq : p.dropsSection ++ x = p'.dropsSection ++ y) :
    (p.deposit = p'.deposit ∧ p.claimed = p'.claimed) ∧ x = y := by
  unfold dropsSection at heq
  apply section_delimits hx hy heq
  · intro h
    simp only [append_assoc] at h
    obtain ⟨hdeposit, h⟩ := putAmap_delimits hp.deposit hp'.deposit h
    obtain ⟨hclaimed, h⟩ := putAmap_delimits hp.claimed hp'.claimed h
    rw [hn.deposit, hn'.deposit] at hdeposit
    rw [hn.claimed, hn'.claimed] at hclaimed
    exact ⟨⟨hdeposit, hclaimed⟩, h⟩
  intro hno hno'
  rw [not_or, not_not, not_not] at hno hno'
  exact ⟨hno.1.trans hno'.1.symm, hno.2.trans hno'.2.symm⟩

theorem enrolSection_delimits {x y : List Byte} (hp : p.Fits) (hp' : p'.Fits)
    (hx : ¬ tagBytes 71 <+: x) (hy : ¬ tagBytes 71 <+: y)
    (heq : p.enrolSection ++ x = p'.enrolSection ++ y) : p.enrolAdd = p'.enrolAdd ∧ x = y := by
  unfold enrolSection at heq
  apply section_delimits hx hy heq
  · exact putEnrolRecords_delimits hp.enrolAdd hp'.enrolAdd
  intro hno hno'
  rw [not_not] at hno hno'
  exact hno.trans hno'.symm

theorem windowSection_delimits {x y : List Byte} (hp : p.Fits) (hp' : p'.Fits)
    (hx : ¬ tagBytes 87 <+: x) (hy : ¬ tagBytes 87 <+: y)
    (heq : p.windowSection ++ x = p'.windowSection ++ y) : p.window = p'.window ∧ x = y := by
  unfold windowSection at heq
  apply section_delimits hx hy heq
  · exact putDropsWindow_delimits hp.window hp'.window
  intro hno hno'
  rw [not_not] at hno hno'
  exact hno.trans hno'.symm

theorem laneSection_injective (hp : p.Fits) (hp' : p'.Fits)
    (heq : p.laneSection = p'.laneSection) : p.height = p'.height ∧ p.gross = p'.gross := by
  rw [← append_nil p.laneSection, ← append_nil p'.laneSection] at heq
  unfold laneSection at heq
  refine (section_delimits (tag_not_prefix_nil 90) (tag_not_prefix_nil 90) heq ?_ ?_).1
  · intro h
    obtain ⟨hheight, h⟩ := delimits_u64 _ _ _ _ trivial trivial h
    have hkey : Delimits (fun e : Bytes32 × Unit => e.1.toBytes) (fun _ => True) :=
      delimits_toBytes.comap (fun _ _ _ _ h => Prod.ext h rfl) fun _ _ => trivial
    have hkeys := (delimits_putU64.counted hkey) p.gross.entries p'.gross.entries [] []
      ⟨hp.gross, fun _ _ => trivial⟩ ⟨hp'.gross, fun _ _ => trivial⟩
    exact ⟨⟨hheight, entries_injective (hkeys h).1⟩, rfl⟩
  intro hno hno'
  rw [not_or, not_not, not_not] at hno hno'
  exact ⟨hno.1.trans hno'.1.symm, hno.2.trans hno'.2.symm⟩

theorem leaf_injective {bid bid' : Bid} (hbid : bid.length < 2 ^ 32) (hbid' : bid'.length < 2 ^ 32)
    (hp : p.Fits) (hp' : p'.Fits) (hn : p.Normal) (hn' : p'.Normal)
    (heq : p.leaf bid = p'.leaf bid') : bid = bid' ∧ p.core = p'.core := by
  rw [leaf_eq, leaf_eq] at heq
  obtain ⟨-, hid, -, heq⟩ := leafPayload_delimits hbid hbid' heq
  obtain ⟨hcredit, heq⟩ := putAmap_delimits hp.credit hp'.credit heq
  obtain ⟨hpayout, heq⟩ := putAmap_delimits hp.payout hp'.payout heq
  rw [append_cancel_left_eq] at heq
  rw [hn.credit, hn'.credit] at hcredit
  rw [hn.payout, hn'.payout] at hpayout
  obtain ⟨⟨hdeposit, hclaimed⟩, heq⟩ := dropsSection_delimits hp hp' hn hn' (not_prefix_enrol p)
    (not_prefix_enrol p') heq
  obtain ⟨henrol, heq⟩ := enrolSection_delimits hp hp'
    (not_prefix_window (by decide) (by decide) p) (not_prefix_window (by decide) (by decide) p') heq
  obtain ⟨hwindow, heq⟩ := windowSection_delimits hp hp' (not_prefix_lane (by decide) p)
    (not_prefix_lane (by decide) p') heq
  obtain ⟨hheight, hgross⟩ := laneSection_injective hp hp' heq
  refine ⟨hid, ?_⟩
  unfold core
  rw [hcredit, hpayout, hdeposit, hclaimed, henrol, hwindow, hheight, hgross]

end Pending

end C2Pool.V37
