import Flix.Exec.Mapping

/-!
# The arguments of a program

The strings go on the stack first, each below the one before. Below them comes a null
pointer, then the array of pointers to the strings, filled upwards from its lowest
element, and at the bottom their number, where the stack pointer is.

As long as all of it has room below `top` there is no wrap, and each part is written once:
what a write has put down stays, because the later ones are below it. `StringsAt` and the
words of the array are what is left of them in the end.
-/

namespace Flix.Exec

open Bytes Paging Fs

/-- The bytes that the strings take. -/
def stringBytes (args : List Str) : Nat := (args.map fun arg => arg.length + 1).sum

/-- The bytes that all of it takes. -/
def blockSize (args : List Str) : Nat := stringBytes args + 8 + 8 * args.length + 8

theorem stringBytes_cons (arg : Str) (args : List Str) :
    stringBytes (arg :: args) = arg.length + 1 + stringBytes args := rfl

theorem back_eq {p n : Nat} (hp : p < 2 ^ 64) (hn : n ≤ p) : back p n = p - n := by
  unfold back
  omega

/-! ## Reading them -/

/-- A string up to its terminator, of at most `fuel` bytes. -/
def readString (m : Mem) : Nat → Nat → Str
  | 0, _ => []
  | fuel + 1, p => if m p = 0 then [] else m p :: readString m fuel (p + 1)

/-- What a program finds from its stack pointer on: a number, and so many pointers to strings. -/
def readArguments (m : Mem) (rsp : Nat) : List Str :=
  (List.range (readLE m rsp 8)).map fun i => readString m 0x4000 (readLE m (rsp + 8 + 8 * i) 8)

/-- A string with its terminator is at `p`. -/
def StringAt (m : Mem) (p : Nat) (s : Str) : Prop :=
  ∀ j ≤ s.length, m (p + j) = (s ++ [0]).getD j 0

variable {m : Mem}

theorem StringAt.tail {p : Nat} {b : UInt8} {s : Str} (h : StringAt m p (b :: s)) :
    StringAt m (p + 1) s := by
  intro j hj
  have hnext := h (j + 1) (Nat.succ_le_succ hj)
  rw [← Nat.add_assoc, Nat.add_right_comm] at hnext
  exact hnext

theorem readString_eq : ∀ {s : Str} {fuel p : Nat}, StringAt m p s → 0 ∉ s →
    s.length < fuel → readString m fuel p = s
  | _, 0, _, _, _, hfuel => absurd hfuel (Nat.not_lt_zero _)
  | [], fuel + 1, p, h, _, _ => by
    have hend : m p = 0 := h 0 (Nat.le_refl 0)
    rw [readString, if_pos hend]
  | b :: s, fuel + 1, p, h, hnul, hfuel => by
    have hb : m p = b := h 0 (Nat.zero_le _)
    have hb0 : m p ≠ 0 := fun h0 => hnul (by rw [← h0, hb]; exact mem_cons_self)
    rw [readString, if_neg hb0, hb,
      readString_eq h.tail (fun h0 => hnul (mem_cons_of_mem b h0)) (Nat.lt_of_succ_lt_succ hfuel)]

/-! ## The strings -/

/-- Where the strings are, below `c`. -/
def stringAddresses (c : Nat) : List Str → List Nat
  | [] => []
  | arg :: args => (c - (arg.length + 1)) :: stringAddresses (c - (arg.length + 1)) args

theorem length_stringAddresses : ∀ (c : Nat) (args : List Str),
    (stringAddresses c args).length = args.length
  | _, [] => rfl
  | _, _ :: args => congrArg (· + 1) (length_stringAddresses _ args)

/-- The strings are below `c`, one below the other. -/
def StringsAt (m : Mem) (c : Nat) : List Str → Prop
  | [] => True
  | arg :: args =>
    StringAt m (c - (arg.length + 1)) arg ∧ StringsAt m (c - (arg.length + 1)) args

theorem StringsAt.congr {m' : Mem} : ∀ {args : List Str} {c : Nat}, stringBytes args ≤ c →
    StringsAt m c args → (∀ a, c - stringBytes args ≤ a → a < c → m' a = m a) → StringsAt m' c args
  | [], _, _, _, _ => trivial
  | arg :: args, c, hle, ⟨hs, hrest⟩, hsame => by
    rw [stringBytes_cons] at hle hsame
    refine ⟨fun j hj => ?_, hrest.congr (by omega) fun a ha hlt => hsame a (by omega) (by omega)⟩
    rw [hsame _ (by omega) (by omega)]
    exact hs j hj

variable {l : Loading}

theorem write_string {c : Nat} {arg : Str} (hc : c < 2 ^ 64) (hle : arg.length + 1 ≤ c) :
    StringAt (l.write (c - (arg.length + 1)) (arg ++ [0])).mem (c - (arg.length + 1)) arg := by
  intro j hj
  have hlen : (arg ++ [0]).length = arg.length + 1 := length_append
  show overwrite l.mem _ _ _ = _
  rw [overwrite_inside (by omega) (by omega) (by omega), Nat.add_sub_cancel_left]

/-- The strings on the stack, and what is left alone. -/
theorem pushStrings_spec : ∀ (args : List Str) (l : Loading) (c : Nat) (address : List Nat),
    c < 2 ^ 64 → stringBytes args ≤ c →
    (pushStrings l c address args).2 = (c - stringBytes args, address ++ stringAddresses c args) ∧
      StringsAt (pushStrings l c address args).1.mem c args ∧
      ∀ a, a < 2 ^ 64 → a < c - stringBytes args ∨ c ≤ a →
        (pushStrings l c address args).1.mem a = l.mem a
  | [], l, c, address, _, _ => by simp [pushStrings, stringBytes, stringAddresses, StringsAt]
  | arg :: args, l, c, address, hc, hle => by
    rw [stringBytes_cons] at hle ⊢
    have hback : back c (arg.length + 1) = c - (arg.length + 1) := back_eq hc (by omega)
    rw [pushStrings, hback]
    obtain ⟨hpos, hstrings, hsame⟩ := pushStrings_spec args
      (l.write (c - (arg.length + 1)) (arg ++ [0])) (c - (arg.length + 1))
      (address ++ [c - (arg.length + 1)]) (by omega) (by omega)
    refine ⟨?_, ⟨fun j hj => ?_, hstrings⟩, fun a ha hout => ?_⟩
    · rw [hpos, Nat.sub_sub, append_assoc]
      rfl
    · rw [hsame _ (by omega) (by omega)]
      exact write_string hc (by omega) j hj
    · rw [hsame a ha (by omega)]
      have hlen : (arg ++ [(0 : UInt8)]).length = arg.length + 1 := length_append
      exact overwrite_outside (by omega) ha (by omega)

/-! ## The pointers -/

theorem write_word_other {start v a : Nat} (hlt : start + 8 ≤ 2 ^ 64) (ha : a < 2 ^ 64)
    (hout : a < start ∨ start + 8 ≤ a) : (l.write start (word v)).mem a = l.mem a := by
  show overwrite l.mem start (word v) a = _
  rw [overwrite_word hlt ha, writeLE_outside hout]

theorem write_word_self {start v : Nat} (hlt : start + 8 ≤ 2 ^ 64) (hv : v < 2 ^ 64) :
    readLE (l.write start (word v)).mem start 8 = v := by
  have hsame : readLE (l.write start (word v)).mem start 8 = readLE (writeLE l.mem start 8 v) start 8 :=
    readLE_congr fun a _ ha => overwrite_word hlt (by omega)
  rw [hsame, readLE_writeLE_self]
  exact Nat.mod_eq_of_lt hv

/-- The array, and what is left alone. -/
theorem pushPointers_spec : ∀ (address : List Nat) (l : Loading) (e : Nat),
    e + 8 * address.length < 2 ^ 64 → (∀ p ∈ address, p < 2 ^ 64) →
    (∀ i < address.length, readLE (pushPointers l e address).mem (e + 8 * i) 8
      = address.getD i 0) ∧
      ∀ a, a < 2 ^ 64 → a < e ∨ e + 8 * address.length ≤ a →
        (pushPointers l e address).mem a = l.mem a
  | [], l, e, _, _ => ⟨fun i hi => absurd hi (Nat.not_lt_zero i), fun _ _ _ => rfl⟩
  | p :: address, l, e, he, hp => by
    rw [length_cons] at he
    have hnext : (e + 8) % 2 ^ 64 = e + 8 := Nat.mod_eq_of_lt (by omega)
    rw [pushPointers, hnext]
    obtain ⟨harray, hsame⟩ := pushPointers_spec address (l.write e (word p)) (e + 8) (by omega)
      fun q hq => hp q (mem_cons_of_mem p hq)
    refine ⟨fun i hi => ?_, fun a ha hout => ?_⟩
    · cases i with
      | zero =>
        rw [readLE_congr fun a hle hlt => hsame a (by omega) (by omega)]
        exact write_word_self (by omega) (hp p mem_cons_self)
      | succ i =>
        have hidx : e + 8 * (i + 1) = e + 8 + 8 * i := by omega
        rw [hidx]
        exact harray i (Nat.lt_of_succ_lt_succ hi)
    · rw [length_cons] at hout
      rw [hsame a ha (by omega)]
      exact write_word_other (by omega) ha (by omega)

/-! ## All of it -/

/-- The arguments are below `top`, from `rsp` on, and nothing else has changed. -/
structure Block (mem old : Mem) (top : Nat) (args : List Str) (rsp : Nat) : Prop where
  size : rsp + blockSize args = top
  count : readLE mem rsp 8 = args.length
  array : ∀ i < args.length,
    readLE mem (rsp + 8 + 8 * i) 8 = (stringAddresses top args).getD i 0
  null : readLE mem (rsp + 8 + 8 * args.length) 8 = 0
  strings : StringsAt mem top args
  others : ∀ a, a < 2 ^ 64 → a < rsp ∨ top ≤ a → mem a = old a

theorem stringAddresses_le : ∀ {c : Nat} {args : List Str}, ∀ p ∈ stringAddresses c args, p ≤ c
  | c, arg :: args, p, hp => by
    rcases mem_cons.mp hp with rfl | hp
    · exact Nat.sub_le _ _
    · exact Nat.le_trans (stringAddresses_le p hp) (Nat.sub_le _ _)

theorem back_add {a n : Nat} (h : a + n < 2 ^ 64) : back (a + n) n = a := by
  rw [back_eq h (Nat.le_add_left n a), Nat.add_sub_cancel]

/-- The null pointer, the array and the number, from `r` up to the strings. -/
theorem pushWords_spec {r : Nat} {address : List Nat} (hr : r + 8 + 8 * address.length + 8 < 2 ^ 64)
    (haddr : ∀ p ∈ address, p < 2 ^ 64) {l' : Loading}
    (hl : ((pushPointers (l.write (r + 8 + 8 * address.length) (word 0)) (r + 8) address).write r
      (word address.length)) = l') :
    readLE l'.mem r 8 = address.length ∧
      (∀ i < address.length, readLE l'.mem (r + 8 + 8 * i) 8 = address.getD i 0) ∧
      readLE l'.mem (r + 8 + 8 * address.length) 8 = 0 ∧
      ∀ a, a < 2 ^ 64 → a < r ∨ r + 8 + 8 * address.length + 8 ≤ a → l'.mem a = l.mem a := by
  generalize hl1 : l.write (r + 8 + 8 * address.length) (word 0) = l1 at hl
  obtain ⟨harray, hrest⟩ := pushPointers_spec address l1 (r + 8) (by omega) haddr
  generalize hl2 : pushPointers l1 (r + 8) address = l2 at harray hrest hl
  -- what the number leaves alone
  have hnumber : ∀ a, a < 2 ^ 64 → a < r ∨ r + 8 ≤ a → l'.mem a = l2.mem a := by
    intro a ha hout
    rw [← hl]
    exact write_word_other (by omega) ha hout
  refine ⟨?_, fun i hi => ?_, ?_, fun a ha hout => ?_⟩
  · rw [← hl]
    exact write_word_self (by omega) (by omega)
  · rw [readLE_congr fun a _ _ => hnumber a (by omega) (by omega)]
    exact harray i hi
  · rw [readLE_congr fun a _ _ => hnumber a (by omega) (by omega),
      readLE_congr fun a _ _ => hrest a (by omega) (by omega), ← hl1]
    exact write_word_self (by omega) (by omega)
  · rw [hnumber a ha (by omega), hrest a ha (by omega), ← hl1]
    exact write_word_other (by omega) ha (by omega)

/-- The parts are written from the top down, each below what is there. -/
theorem pushArguments_block {top : Nat} {args : List Str} (htop : top < 2 ^ 64)
    (hfit : blockSize args ≤ top) :
    Block (pushArguments l top args).1.mem l.mem top args (pushArguments l top args).2 := by
  unfold blockSize at hfit
  obtain ⟨r, hr⟩ : ∃ r, top - stringBytes args = r + 8 + 8 * args.length + 8 :=
    ⟨top - (stringBytes args + 8 + 8 * args.length + 8), by omega⟩
  obtain ⟨hpos, hstrings, hsame⟩ := pushStrings_spec args l top [] htop (by omega)
  have hcur : (pushStrings l top [] args).2.1 = r + 8 + 8 * args.length + 8 :=
    (congrArg Prod.fst hpos).trans hr
  have haddr : (pushStrings l top [] args).2.2 = stringAddresses top args := congrArg Prod.snd hpos
  unfold pushArguments
  simp only [hcur, haddr, length_stringAddresses]
  rw [back_add (by omega), back_add (by omega), back_add (by omega)]
  have hwords := @pushWords_spec (pushStrings l top [] args).1 r (stringAddresses top args)
    (by rw [length_stringAddresses]; omega)
    (fun p hp => Nat.lt_of_le_of_lt (stringAddresses_le p hp) htop) _ rfl
  rw [length_stringAddresses] at hwords
  obtain ⟨hcount, harray, hnull, hrest⟩ := hwords
  refine ⟨?_, hcount, harray, hnull, ?_, fun a ha hout => ?_⟩
  · unfold blockSize
    omega
  · exact hstrings.congr (by omega) fun a hle hlt => hrest a (by omega) (by omega)
  · rw [hrest a ha (by omega), hsame a ha (by omega)]

/-! ## The result -/

section Strings

variable {top : Nat} {args : List Str}

theorem StringsAt.get : ∀ {args : List Str} {c : Nat}, StringsAt m c args → ∀ i < args.length,
    StringAt m ((stringAddresses c args).getD i 0) (args.getD i [])
  | [], _, _, i, hi => absurd hi (Nat.not_lt_zero i)
  | _ :: _, _, h, 0, _ => h.1
  | _ :: args, _, h, i + 1, hi => @StringsAt.get args _ h.2 i (Nat.lt_of_succ_lt_succ hi)

theorem stringAddresses_bounds : ∀ {args : List Str} {c : Nat}, stringBytes args ≤ c →
    ∀ i < args.length, c - stringBytes args ≤ (stringAddresses c args).getD i 0 ∧
      (stringAddresses c args).getD i 0 + (args.getD i []).length + 1 ≤ c ∧
      ∀ j < i, (stringAddresses c args).getD i 0 + (args.getD i []).length + 1
        ≤ (stringAddresses c args).getD j 0
  | [], _, _, i, hi => absurd hi (Nat.not_lt_zero i)
  | arg :: args, c, hle, 0, _ => by
    rw [stringBytes_cons] at hle ⊢
    refine ⟨?_, ?_, fun j hj => absurd hj (Nat.not_lt_zero j)⟩
    · show _ ≤ c - (arg.length + 1)
      omega
    · show c - (arg.length + 1) + arg.length + 1 ≤ c
      omega
  | arg :: args, c, hle, i + 1, hi => by
    rw [stringBytes_cons] at hle ⊢
    obtain ⟨hlow, hhigh, hbelow⟩ := @stringAddresses_bounds args (c - (arg.length + 1)) (by omega)
      i (Nat.lt_of_succ_lt_succ hi)
    simp only [stringAddresses, List.getD_cons_succ]
    refine ⟨by omega, by omega, fun j hj => ?_⟩
    cases j with
    | zero => exact hhigh
    | succ j => exact hbelow j (Nat.lt_of_succ_lt_succ hj)

/-- The strings, the pointers and the number are apart, and on the stack: the number is at `rsp`,
the pointers with the null pointer behind them follow, and then the strings. -/
structure Separate (mem : Mem) (rsp : Nat) (args : List Str) : Prop where
  stack : 0xf000000000 ≤ rsp
  strings : ∀ i < args.length,
    rsp + 8 + 8 * args.length + 8 ≤ readLE mem (rsp + 8 + 8 * i) 8 ∧
      readLE mem (rsp + 8 + 8 * i) 8 + (args.getD i []).length + 1 ≤ stackTop
  below : ∀ i < args.length, ∀ j < i,
    readLE mem (rsp + 8 + 8 * i) 8 + (args.getD i []).length + 1 ≤ readLE mem (rsp + 8 + 8 * j) 8

variable {mem old : Mem} {rsp : Nat}

theorem length_le_stringBytes : ∀ {args : List Str} {arg : Str}, arg ∈ args →
    arg.length < stringBytes args
  | b :: args, arg, h => by
    rw [stringBytes_cons]
    rcases mem_cons.mp h with rfl | h
    · omega
    · have := length_le_stringBytes h
      omega

theorem Block.readArguments_eq (h : Block mem old top args rsp) (hnul : ∀ arg ∈ args, 0 ∉ arg)
    (hfit : blockSize args ≤ 0x4000) : readArguments mem rsp = args := by
  rw [readArguments, h.count]
  refine List.ext_getElem (by rw [List.length_map, List.length_range]) fun i hi hi' => ?_
  have hget : args.getD i [] = args[i] := List.getD_eq_getElem _ _ hi'
  have hlen := length_le_stringBytes (List.getElem_mem hi')
  unfold blockSize at hfit
  rw [List.getElem_map, List.getElem_range, h.array i hi', readString_eq (h.strings.get i hi'), hget]
  · rw [hget]
    exact hnul _ (List.getElem_mem hi')
  · rw [hget]
    omega

theorem Block.separate (h : Block mem old stackTop args rsp) (hfit : blockSize args ≤ 0x4000) :
    Separate mem rsp args := by
  have hsize := h.size
  have htop : stackTop = 0xf000004000 := rfl
  have hbytes : stringBytes args ≤ stackTop := by
    unfold blockSize at hsize
    omega
  refine ⟨by omega, fun i hi => ?_, fun i hi j hj => ?_⟩
  · obtain ⟨hlow, hhigh, -⟩ := stringAddresses_bounds hbytes i hi
    rw [h.array i hi]
    refine ⟨?_, hhigh⟩
    unfold blockSize at hsize
    omega
  · obtain ⟨-, -, hbelow⟩ := stringAddresses_bounds hbytes i hi
    rw [h.array i hi, h.array j (hj.trans hi)]
    exact hbelow j hj

end Strings

section Started

variable {f : File} {root rflags : Nat} {args : List Str} {w : World} {st : Start}

theorem blockSize_le_stackTop (hfit : blockSize args ≤ 0x4000) : blockSize args ≤ stackTop :=
  Nat.le_trans hfit (by decide)

theorem exec_block (hexec : exec f root args rflags w m = some (l, some st))
    (hfit : blockSize args ≤ 0x4000) :
    Block l.mem ((loads f.programHeaders).foldl f.image m) stackTop args st.rsp := by
  obtain ⟨-, w', -, hpush, -⟩ := exec_started hexec
  have hblock := @pushArguments_block (f.loaded m w') stackTop args (by decide)
    (blockSize_le_stackTop hfit)
  have hmem : (f.loaded m w').mem = (loads f.programHeaders).foldl f.image m := by rw [File.loaded]
  rw [hpush, hmem] at hblock
  exact hblock

/-- **Arguments arrive.** A program that is started with strings that fit on its stack reads them
there as they were given. -/
theorem arguments_round_trip (hexec : exec f root args rflags w m = some (l, some st))
    (hnul : ∀ arg ∈ args, 0 ∉ arg) (hfit : blockSize args ≤ 0x4000) :
    readArguments l.mem st.rsp = args ∧
      readLE l.mem (st.rsp + 8 + 8 * args.length) 8 = 0 ∧ Separate l.mem st.rsp args :=
  have hblock := exec_block hexec hfit
  ⟨hblock.readArguments_eq hnul hfit, hblock.null, hblock.separate hfit⟩

/-- `ls -l`. -/
theorem arguments_round_trip_ls : ∃ root w l st,
    exec headerOnly root [[108, 115], [45, 108]] 0x200 w (fun _ => 0) = some (l, some st) ∧
      readArguments l.mem st.rsp = [[108, 115], [45, 108]] := by
  obtain ⟨w, root, l, st, hexec⟩ := headerOnly_starts [[108, 115], [45, 108]] fun _ => 0
  exact ⟨root, w, l, st, hexec, (arguments_round_trip hexec (by decide) (by decide)).1⟩

end Started

/-! ## What is behind the pointers -/

/-- The bytes of the strings, from the last to the first. -/
def stringArea (args : List Str) : List UInt8 := args.reverse.flatMap (· ++ [0])

theorem stringArea_cons (arg : Str) (args : List Str) :
    stringArea (arg :: args) = stringArea args ++ (arg ++ [0]) := by
  simp [stringArea]

theorem length_stringArea : ∀ args : List Str, (stringArea args).length = stringBytes args
  | [] => rfl
  | arg :: args => by
    rw [stringArea_cons, length_append, length_stringArea args, stringBytes_cons,
      length_append, List.length_singleton]
    omega

theorem StringsAt.area : ∀ {args : List Str} {c : Nat}, stringBytes args ≤ c →
    StringsAt m c args → ∀ j < stringBytes args,
      m (c - stringBytes args + j) = (stringArea args).getD j 0
  | [], _, _, _, j, hj => absurd hj (Nat.not_lt_zero j)
  | arg :: args, c, hle, h, j, hj => by
    rw [stringBytes_cons] at hle hj
    rw [stringArea_cons, stringBytes_cons]
    by_cases hlt : j < stringBytes args
    · rw [List.getD_append _ _ _ _ (by rwa [length_stringArea])]
      have hrest := StringsAt.area (by omega) h.2 j hlt
      rwa [Nat.sub_sub] at hrest
    · rw [List.getD_append_right _ _ _ _ (by rw [length_stringArea]; omega), length_stringArea]
      have hstring := h.1 (j - stringBytes args) (by omega)
      rw [← hstring]
      exact congrArg m (by omega)

section Entry

variable {f : File} {root rflags : Nat} {args : List Str} {w : World} {st : Start}

/-- **What a program finds at its start.** The stack pointer is as far below the top as the
arguments are long, so it is aligned to 16 bytes only by chance; and behind the null pointer
that ends the array there are the strings, up to the top of the stack. -/
theorem entry_stack (hexec : exec f root args rflags w m = some (l, some st))
    (hfit : blockSize args ≤ 0x4000) :
    st.rsp + blockSize args = stackTop ∧
      (st.rsp % 16 = 0 ↔ (stringBytes args + 8 * args.length) % 16 = 0) ∧
      readLE l.mem (st.rsp + 8 + 8 * args.length) 8 = 0 ∧
      (∀ j < stringBytes args, l.mem (st.rsp + 8 + 8 * args.length + 8 + j)
        = (stringArea args).getD j 0) ∧
      ∀ a, a < 2 ^ 64 → a < st.rsp ∨ stackTop ≤ a →
        l.mem a = (loads f.programHeaders).foldl f.image m a := by
  have hblock := exec_block hexec hfit
  have hsize := hblock.size
  have htop : stackTop = 0xf000004000 := rfl
  refine ⟨hsize, ?_, hblock.null, fun j hj => ?_, hblock.others⟩
  · unfold blockSize at hsize
    omega
  · unfold blockSize at hsize
    rw [← hblock.strings.area (by omega) j hj]
    exact congrArg l.mem (by omega)

theorem entry_stack_ls : ∃ root w l st,
    exec headerOnly root [[108, 115], [45, 108]] 0x200 w (fun _ => 0) = some (l, some st) ∧
      st.rsp + 38 = stackTop := by
  obtain ⟨w, root, l, st, hexec⟩ := headerOnly_starts [[108, 115], [45, 108]] fun _ => 0
  exact ⟨root, w, l, st, hexec, (entry_stack hexec (by decide)).1⟩

/-- A program that is called `a`. The stack pointer is not aligned, and behind the null pointer
there are only the two bytes of the name up to the top, where an environment would need a
pointer. -/
theorem entry_stack_not_aligned : ∃ root w l st,
    exec headerOnly root [[97]] 0x200 w (fun _ => 0) = some (l, some st) ∧ st.rsp % 16 = 6 ∧
      st.rsp + 8 + 8 + 8 + 2 = stackTop := by
  obtain ⟨w, root, l, st, hexec⟩ := headerOnly_starts [[97]] fun _ => 0
  have hsize := (exec_block hexec (by decide)).size
  have hbytes : blockSize [[97]] = 26 := rfl
  have htop : stackTop = 0xf000004000 := rfl
  exact ⟨root, w, l, st, hexec, by omega, by omega⟩

end Entry

end Flix.Exec
