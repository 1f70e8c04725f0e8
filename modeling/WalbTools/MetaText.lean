import WalbTools.DecimalText
import WalbTools.MergeKeeps

namespace WalbTools.MetaText

open Meta DecimalText
open MergeKeeps (createDiffFileName)

/-- `atoi` of a string, which throws at a bad number. -/
def atoi (p : List Char) : Except String Nat :=
  match convertToUint p with
  | some x => .ok x
  | none => .error "atoi::convertToUint"

def set (gidB gidE : Nat) : Except String MetaSnap :=
  if h : gidB ≤ gidE then .ok ⟨gidB, gidE, h⟩ else .error "MetaSnap::check:must be gidB <= gidE"

def snapStr (snap : MetaSnap) : String :=
  if snap.gidB = snap.gidE then "|" ++ toString snap.gidB ++ "|"
  else "|" ++ toString snap.gidB ++ "," ++ toString snap.gidE ++ "|"

def stateStr (st : MetaState) : String :=
  if st.isApplying then "<" ++ snapStr st.snapB ++ "-->" ++ snapStr st.snapE ++ ">"
    else "<" ++ snapStr st.snapB ++ ">"

/-- The digits at the front of `s`, and the rest from the first other character on. -/
def findNonInt (s : List Char) : List Char × List Char := s.span Char.isDigit

/-- The snapshot at the front of `s`, and the rest behind it. A position past the end reads a
zero character. -/
def parseMetaSnap (s : List Char) : Except String (MetaSnap × List Char) := do
  if s.headD '\x00' ≠ '|' then throw "bad input string"
  let (digits, s) := findNonInt s.tail
  let gidB ← atoi digits
  if s.headD '\x00' = '|' then
    let snap ← set gidB gidB
    return (snap, s.tail)
  if s.headD '\x00' ≠ ',' then throw "bad input string"
  let (digits, s) := findNonInt s.tail
  if s.headD '\x00' ≠ '|' then throw "bad input string"
  let gidE ← atoi digits
  let snap ← set gidB gidE
  return (snap, s.tail)

def strToMetaSnap (s : List Char) : Except String MetaSnap := do
  let (snap, _) ← parseMetaSnap s
  return snap

section

variable (unixTimeToStr : Nat → String) (mktime : List Char → Except String Nat)

/-- What follows the check of the characters is left open. -/
def strToUnixTime (ts : List Char) : Except String Nat :=
  if ts.length ≠ 14 then .error "invalid time string."
  else if ts.all Char.isDigit = false then .error "invalid time string."
  else mktime ts

def strTs (st : MetaState) : String := stateStr st ++ "-" ++ unixTimeToStr st.timestamp

def makeState (snapB : MetaSnap) (snapE : Option MetaSnap) (ts : Nat) : Except String MetaState :=
  match snapE with
  | none => .ok (.ofSnap snapB ts)
  | some snapE =>
    if snapE.gidB ≤ snapB.gidB then .error "MetaState::broken progress constraint"
      else .ok (.ofSnaps snapB snapE ts)

def parseApplying (s : List Char) : Except String (Option MetaSnap × List Char) := do
  if s.headD '\x00' ≠ '>' then
    if s.take 3 ≠ ['-', '-', '>'] then throw "bad input string"
    let (snapE, s) ← parseMetaSnap (s.drop 3)
    return (some snapE, s)
  return (none, s)

/-- The timestamp behind the snapshots. `now` is the time of the call. -/
def parseTimestamp (now : Nat) (s : List Char) : Except String Nat := do
  if s.headD '\x00' ≠ '>' then throw "bad input string"
  if s.tail = [] then return now
  if s.tail.headD '\x00' ≠ '-' then throw "bad input string"
  if (findNonInt s.tail.tail).2 ≠ [] then throw "bad input string"
  strToUnixTime mktime s.tail.tail

def strToMetaState (now : Nat) (s : List Char) : Except String MetaState := do
  if s.headD '\x00' ≠ '<' then throw "bad input string"
  let (snapB, s) ← parseMetaSnap s.tail
  let (snapE, s) ← parseApplying s
  let ts ← parseTimestamp mktime now s
  makeState snapB snapE ts

/-- The gids of a name, `n` at most. The last one stands before `.wdiff`. -/
def parseGids : Nat → List Char → Except String (List Nat)
  | 0, _ => .ok []
  | n + 1, s =>
    match find ['-'] s with
    | none =>
      match find ".wdiff".toList s with
      | none => .error "wrong suffix"
      | some k =>
        match convertToUint (s.take k) with
        | none => .error "wrong digit value"
        | some gid => .ok [gid]
    | some k =>
      match convertToUint (s.take k) with
      | none => .error "wrong digit value"
      | some gid => do
        let gidV ← parseGids n (s.drop (k + 1))
        return gid :: gidV

def parseSnaps : List Nat → Except String (MetaSnap × MetaSnap)
  | [gid₀, gid₁] => do
    let snapB ← set gid₀ gid₀
    let snapE ← set gid₁ gid₁
    return (snapB, snapE)
  | [gid₀, gid₁, gid₂, gid₃] => do
    let snapB ← set gid₀ gid₁
    let snapE ← set gid₂ gid₃
    return (snapB, snapE)
  | _ => .error "number of gids must be 2 or 4"

def parseDiffFileName (name : List Char) : Except String MetaDiff := do
  if name.length < "YYYYMMDDhhmmss-MC-0-1.wdiff".length then throw "too short name"
  let timestamp ← strToUnixTime mktime (name.take 14)
  if name[14]? ≠ some '-' then throw "invalid timestamp str"
  if name[17]? ≠ some '-' then throw "must be - at 17th char"
  let gidV ← parseGids 4 (name.drop 18)
  let (snapB, snapE) ← parseSnaps gidV
  let diff : MetaDiff :=
    ⟨decide (name[15]? = some 'M'), decide (name[16]? = some 'C'), timestamp, snapB, snapE, 0⟩
  diff.verify
  return diff

end

section

variable {gid gidB gidE : Nat} {c : Char} {rest : List Char} {snap : MetaSnap}

theorem toList_itoa (gid : Nat) : (toString gid).toList = Nat.toDigits 10 gid := by
  rw [Nat.toString_eq_ofList_toDigits, String.toList_ofList]

theorem findNonInt_itoa (hc : c.isDigit = false) :
    findNonInt (Nat.toDigits 10 gid ++ c :: rest) = (Nat.toDigits 10 gid, c :: rest) := by
  rw [findNonInt, List.span_eq_takeWhile_dropWhile, List.takeWhile_append_of_pos fun _ =>
    isDigit_of_mem_toDigits,
    List.dropWhile_append_of_pos fun _ => isDigit_of_mem_toDigits,
    List.takeWhile_cons_of_neg (by rw [hc]; exact Bool.false_ne_true),
    List.dropWhile_cons_of_neg (by rw [hc]; exact Bool.false_ne_true), List.append_nil]

theorem atoi_itoa (h : gid < 2 ^ 64) : atoi (Nat.toDigits 10 gid) = .ok gid := by
  rw [atoi, convertToUint_toDigits h]

theorem set_snap (hB : gidB = snap.gidB) (hE : gidE = snap.gidE) : set gidB gidE = .ok snap := by
  subst hB hE
  rw [set, dif_pos snap.verify]

theorem toList_snapStr_clean (h : snap.gidB = snap.gidE) :
    (snapStr snap).toList = '|' :: (Nat.toDigits 10 snap.gidB ++ ['|']) := by
  rw [snapStr, if_pos h, String.toList_append, String.toList_append, toList_itoa, List.append_assoc]
  rfl

theorem toList_snapStr_dirty (h : snap.gidB ≠ snap.gidE) :
    (snapStr snap).toList = '|' :: (Nat.toDigits 10 snap.gidB ++ ',' ::
      (Nat.toDigits 10 snap.gidE ++ ['|'])) := by
  rw [snapStr, if_neg h, String.toList_append, String.toList_append, String.toList_append,
    String.toList_append, toList_itoa,
    toList_itoa, List.append_assoc, List.append_assoc, List.append_assoc]
  rfl

theorem parseMetaSnap_snapStr (h : snap.gidE < 2 ^ 64) :
    parseMetaSnap ((snapStr snap).toList ++ rest) = .ok (snap, rest) := by
  have hB : snap.gidB < 2 ^ 64 := snap.verify.trans_lt h
  by_cases hclean : snap.gidB = snap.gidE
  · rw [toList_snapStr_clean hclean, List.cons_append, List.append_assoc, List.singleton_append,
      parseMetaSnap]
    simp only [List.headD_cons, List.tail_cons, ne_eq, not_true_eq_false, if_false,
      findNonInt_itoa (show '|'.isDigit = false by decide),
      atoi_itoa hB, if_true, bind, Except.bind, set_snap rfl hclean]
    rfl
  · rw [toList_snapStr_dirty hclean, List.cons_append, List.append_assoc, List.cons_append,
      List.append_assoc,
      List.singleton_append, parseMetaSnap]
    simp only [List.headD_cons, List.tail_cons, ne_eq, not_true_eq_false, if_false,
      findNonInt_itoa (show ','.isDigit = false by decide),
      findNonInt_itoa (show '|'.isDigit = false by decide), atoi_itoa hB, atoi_itoa h, bind, Except.bind,
      if_neg (show ¬ ',' = '|' by decide), show set snap.gidB snap.gidE = .ok snap from set_snap rfl rfl]
    rfl

end

structure ValidState (st : MetaState) : Prop where
  progress : st.isApplying = true → st.snapB.gidB < st.snapE.gidB
  fitsB : st.snapB.gidE < 2 ^ 64
  fitsE : st.isApplying = true → st.snapE.gidE < 2 ^ 64

section

variable {unixTimeToStr : Nat → String} {mktime : List Char → Except String Nat} {ts now : Nat}
  {st : MetaState} {text : List Char}

theorem digits_of_strToUnixTime (h : strToUnixTime mktime text = .ok ts) :
    text.length = 14 ∧ ∀ c ∈ text, c.isDigit = true := by
  rw [strToUnixTime] at h
  split_ifs at h with hlen hdigit
  refine ⟨not_not.1 hlen, ?_⟩
  rwa [Bool.not_eq_false, List.all_eq_true] at hdigit

theorem findNonInt_digits (h : ∀ c ∈ text, c.isDigit = true) : (findNonInt text).2 = [] := by
  rw [findNonInt, List.span_eq_takeWhile_dropWhile]
  exact List.dropWhile_eq_nil_iff.2 h

theorem toList_stateStr_single (h : st.isApplying = false) :
    (stateStr st).toList = '<' :: ((snapStr st.snapB).toList ++ ['>']) := by
  rw [stateStr, if_neg (by rw [h]; exact Bool.false_ne_true), String.toList_append,
    String.toList_append, List.append_assoc]
  rfl

theorem toList_stateStr_applying (h : st.isApplying = true) : (stateStr st).toList =
    '<' :: ((snapStr st.snapB).toList ++ ('-' :: '-' :: '>' ::
    ((snapStr st.snapE).toList ++ ['>']))) := by
  rw [stateStr, if_pos h, String.toList_append, String.toList_append, String.toList_append,
    String.toList_append,
    List.append_assoc, List.append_assoc, List.append_assoc]
  rfl

theorem parseTimestamp_eq (hts : strToUnixTime mktime text = .ok ts) :
    parseTimestamp mktime now ('>' :: '-' :: text) = .ok ts := by
  obtain ⟨-, hdigits⟩ := digits_of_strToUnixTime hts
  rw [parseTimestamp]
  simp only [List.headD_cons, List.tail_cons, findNonInt_digits hdigits, hts, ne_eq,
    not_true_eq_false, if_false,
    reduceCtorEq]

theorem parseApplying_none : parseApplying ('>' :: text) = .ok (none, '>' :: text) := rfl

theorem parseApplying_some {rest : List Char} {snap : MetaSnap}
    (h : parseMetaSnap rest = .ok (snap, text)) :
    parseApplying ('-' :: '-' :: '>' :: rest) = .ok (some snap, text) := by
  rw [parseApplying]
  simp only [List.headD_cons, List.take_succ_cons, List.take_zero, List.drop_succ_cons,
    List.drop_zero, ne_eq, not_true_eq_false,
    if_false, h]
  rfl

theorem strToMetaState_strTs (hv : ValidState st)
    (hts : strToUnixTime mktime (unixTimeToStr st.timestamp).toList = .ok st.timestamp) :
    ∃ st', strToMetaState mktime now (strTs unixTimeToStr st).toList = .ok st' ∧ st'.opEq st ∧
      st'.timestamp = st.timestamp := by
  have htext : (strTs unixTimeToStr st).toList = (stateStr st).toList ++ '-' ::
      (unixTimeToStr st.timestamp).toList := by
    rw [strTs, String.toList_append, String.toList_append, List.append_assoc]
    rfl
  rw [htext]
  cases hap : st.isApplying with
  | false =>
      refine ⟨.ofSnap st.snapB st.timestamp, ?_, ⟨hap.symm, rfl,
        fun hf => absurd hf Bool.false_ne_true⟩, rfl⟩
      have hsnapB : parseMetaSnap ((snapStr st.snapB).toList ++ '>' :: '-' ::
        (unixTimeToStr st.timestamp).toList) =
          .ok (st.snapB, _) := parseMetaSnap_snapStr hv.fitsB
      rw [toList_stateStr_single hap, List.cons_append, List.append_assoc, List.singleton_append,
        strToMetaState]
      simp only [List.headD_cons, List.tail_cons, ne_eq, not_true_eq_false, if_false, hsnapB, bind,
        Except.bind, parseApplying_none,
        parseTimestamp_eq hts, makeState]
  | true =>
      refine ⟨.ofSnaps st.snapB st.snapE st.timestamp, ?_, ⟨hap.symm, rfl, fun _ => rfl⟩, rfl⟩
      have hsnapE : parseMetaSnap ((snapStr st.snapE).toList ++ '>' :: '-' ::
        (unixTimeToStr st.timestamp).toList) =
          .ok (st.snapE, _) := parseMetaSnap_snapStr (hv.fitsE hap)
      have hsnapB : parseMetaSnap ((snapStr st.snapB).toList ++ '-' :: '-' :: '>' ::
          ((snapStr st.snapE).toList ++ '>' :: '-' :: (unixTimeToStr
            st.timestamp).toList)) = .ok (st.snapB, _) :=
        parseMetaSnap_snapStr hv.fitsB
      rw [toList_stateStr_applying hap, List.cons_append, List.append_assoc, List.cons_append,
        List.cons_append, List.cons_append,
        List.append_assoc, List.singleton_append, strToMetaState]
      simp only [List.headD_cons, List.tail_cons, ne_eq, not_true_eq_false, if_false, hsnapB, bind,
        Except.bind,
        parseApplying_some hsnapE, parseTimestamp_eq hts, makeState, if_neg (hv.progress hap).not_ge]

/-- Snapshots and states survive their text form. -/
theorem text_round_trips (unixTimeToStr : Nat → String) (mktime : List Char → Except String Nat)
    (now : Nat) :
    (∀ snap : MetaSnap, snap.gidE < 2 ^ 64 → strToMetaSnap (snapStr snap).toList = .ok snap) ∧
      ∀ st : MetaState, ValidState st → strToUnixTime mktime (unixTimeToStr st.timestamp).toList =
      .ok st.timestamp →
        ∃ st', strToMetaState mktime now (strTs unixTimeToStr st).toList = .ok st' ∧ st'.opEq st ∧
        st'.timestamp = st.timestamp := by
  refine ⟨fun snap h => ?_, fun st hv hts => strToMetaState_strTs hv hts⟩
  have hparse : parseMetaSnap ((snapStr snap).toList ++ []) = .ok (snap, []) := parseMetaSnap_snapStr h
  rw [List.append_nil] at hparse
  rw [strToMetaSnap, hparse]
  rfl

theorem text_round_trips_applying : ∃ st', strToMetaState (fun _ => .ok 1420070400) 0
    (strTs (fun _ => "20150101000000") ⟨true, 1420070400, ⟨1, 3, by decide⟩, .clean 4,
      true⟩).toList = .ok st' ∧
      st'.opEq ⟨true, 1420070400, ⟨1, 3, by decide⟩, .clean 4, true⟩ ∧ st'.timestamp = 1420070400 :=
  (text_round_trips (fun _ => "20150101000000") (fun _ => .ok 1420070400) 0).2 _
    ⟨fun _ => by decide, by decide, fun _ => by decide⟩ (by rfl)

end

section

variable {unixTimeToStr : Nat → String} {mktime : List Char → Except String Nat} {gid n : Nat}
  {rest : List Char} {d e : MetaDiff}

theorem dash_notMem : '-' ∉ Nat.toDigits 10 gid :=
  fun h => absurd (isDigit_of_mem_toDigits h) (by decide)

theorem dot_notMem : '.' ∉ Nat.toDigits 10 gid := fun h => absurd (isDigit_of_mem_toDigits h) (by decide)

theorem parseGids_cons (h : gid < 2 ^ 64) {gidV : List Nat} (hrest : parseGids n rest = .ok gidV) :
    parseGids (n + 1) (Nat.toDigits 10 gid ++ '-' :: rest) = .ok (gid :: gidV) := by
  have hfind : find ['-'] (Nat.toDigits 10 gid ++ '-' :: rest) =
    some (Nat.toDigits 10 gid).length := find_append dash_notMem
  have hdrop : (Nat.toDigits 10 gid ++ '-' :: rest).drop ((Nat.toDigits 10 gid).length + 1) = rest := by
    rw [← List.drop_drop, List.drop_left' rfl]
    rfl
  rw [parseGids]
  simp only [hfind, List.take_left' rfl, convertToUint_toDigits h, hdrop, hrest]
  rfl

theorem parseGids_last (h : gid < 2 ^ 64) :
    parseGids (n + 1) (Nat.toDigits 10 gid ++ ['.', 'w', 'd', 'i', 'f', 'f']) = .ok [gid] := by
  have hnone : find ['-'] (Nat.toDigits 10 gid ++ ['.', 'w', 'd', 'i', 'f', 'f']) = none := by
    refine find_eq_none fun hmem => ?_
    obtain hmem | hmem := List.mem_append.1 hmem
    · exact dash_notMem hmem
    · exact absurd hmem (by decide)
  have hfind : find ".wdiff".toList (Nat.toDigits 10 gid ++ ['.', 'w', 'd', 'i', 'f', 'f']) =
      some (Nat.toDigits 10 gid).length :=
    @find_append _ (Nat.toDigits 10 gid) _ [] dot_notMem
  rw [parseGids]
  simp only [hnone, hfind, List.take_left' rfl, convertToUint_toDigits h]

def gidsText (v : List Nat) : List Char := v.flatMap fun gid => '-' :: Nat.toDigits 10 gid

theorem gidsText_cons {v : List Nat} : gidsText (gid :: v) = '-' ::
    (Nat.toDigits 10 gid ++ gidsText v) := List.flatMap_cons

theorem length_gidsText (v : List Nat) : 2 * v.length ≤ (gidsText v).length := by
  induction v with
  | nil => exact Nat.le_refl 0
  | cons gid v ih =>
      have hpos : 0 < (Nat.toDigits 10 gid).length := List.length_pos_iff.2 Nat.toDigits_ne_nil
      rw [gidsText_cons, List.length_cons, List.length_cons, List.length_append]
      omega

theorem parseGids_gidsText (v : List Nat) (hv : v ≠ []) (hlen : v.length ≤ n)
    (hlt : ∀ gid ∈ v, gid < 2 ^ 64) :
    parseGids n ((gidsText v ++ ['.', 'w', 'd', 'i', 'f', 'f']).tail) = .ok v := by
  induction v generalizing n with
  | nil => exact absurd rfl hv
  | cons gid v ih =>
      obtain ⟨hgid, hlt⟩ := List.forall_mem_cons.1 hlt
      obtain ⟨n, rfl⟩ :=
        Nat.exists_eq_add_of_le' (Nat.one_le_of_lt (Nat.lt_of_lt_of_le (Nat.succ_pos _) hlen))
      rw [gidsText_cons, List.cons_append, List.tail_cons, List.append_assoc]
      cases v with
      | nil => exact parseGids_last hgid
      | cons gid' v =>
          have hrest := ih (List.cons_ne_nil gid' v) (Nat.le_of_succ_le_succ hlen) hlt
          rw [gidsText_cons, List.cons_append, List.tail_cons] at hrest
          rw [gidsText_cons, List.cons_append]
          exact parseGids_cons hgid hrest

theorem toList_createDiffFileName (d : MetaDiff) : (createDiffFileName unixTimeToStr d).toList =
    (unixTimeToStr d.timestamp).toList ++ '-' :: (if d.isMergeable then 'M' else '-') ::
    (if d.isCompDiff then 'C' else '-') ::
      (gidsText (if d.isDirty then [d.snapB.gidB, d.snapB.gidE, d.snapE.gidB, d.snapE.gidE]
        else [d.snapB.gidB, d.snapE.gidB]) ++
        ['.', 'w', 'd', 'i', 'f', 'f']) := by
  have hfold : ∀ (v : List Nat) (s : String), (v.foldl (fun s gid => s ++ "-" ++ toString gid)
      s).toList = s.toList ++ gidsText v := by
    intro v
    induction v with
    | nil => exact fun s => (List.append_nil _).symm
    | cons gid v ih =>
        intro s
        rw [List.foldl_cons, ih, String.toList_append, String.toList_append, toList_itoa,
          gidsText_cons, List.append_assoc,
          List.append_assoc]
        rfl
  unfold createDiffFileName
  rw [String.toList_append, hfold]
  simp only [String.toList_append, List.append_assoc]
  cases d.isMergeable <;> cases d.isCompDiff <;> rfl

theorem parseSnaps_gids (d : MetaDiff) :
    parseSnaps (if d.isDirty then [d.snapB.gidB, d.snapB.gidE, d.snapE.gidB, d.snapE.gidE]
      else [d.snapB.gidB, d.snapE.gidB]) =
      .ok (d.snapB, d.snapE) := by
  by_cases hd : d.isDirty
  · have hB : set d.snapB.gidB d.snapB.gidE = .ok d.snapB := set_snap rfl rfl
    have hE : set d.snapE.gidB d.snapE.gidE = .ok d.snapE := set_snap rfl rfl
    rw [if_pos hd, parseSnaps, hB, hE]
    rfl
  · have hclean : d.isClean := by
      rw [MetaDiff.isDirty_iff_not_isClean, not_not] at hd
      exact hd
    have hB : set d.snapB.gidB d.snapB.gidB = .ok d.snapB := set_snap rfl hclean.1
    have hE : set d.snapE.gidB d.snapE.gidB = .ok d.snapE := set_snap rfl hclean.2
    rw [if_neg hd, parseSnaps, hB, hE]
    rfl

theorem parseDiffFileName_createDiffFileName (hv : d.Valid)
    (hts : strToUnixTime mktime (unixTimeToStr d.timestamp).toList = .ok d.timestamp) :
    parseDiffFileName mktime (createDiffFileName unixTimeToStr d).toList = .ok
      { d with dataSize := 0 } := by
  obtain ⟨hlen, -⟩ := digits_of_strToUnixTime hts
  have hsnaps := parseSnaps_gids d
  obtain ⟨v, hvv⟩ : ∃ v, v = (if d.isDirty then [d.snapB.gidB, d.snapB.gidE, d.snapE.gidB, d.snapE.gidE]
      else [d.snapB.gidB, d.snapE.gidB]) := ⟨_, rfl⟩
  have hlt : ∀ gid ∈ v, gid < 2 ^ 64 := by
    have hEE : d.snapE.gidE < 2 ^ 64 := hv.fits
    have hEB := d.snapE.verify
    have hBE := hv.progressE
    have hBB := d.snapB.verify
    rw [hvv]
    split_ifs <;> simp <;> omega
  have hvlen : v ≠ [] ∧ 2 ≤ v.length ∧ v.length ≤ 4 := by
    rw [hvv]
    split_ifs <;> simp
  rw [← hvv] at hsnaps
  have hgids := parseGids_gidsText v hvlen.1 hvlen.2.2 hlt
  have hglen := length_gidsText v
  have hname : (createDiffFileName unixTimeToStr d).toList = _ := toList_createDiffFileName d
  rw [← hvv] at hname
  generalize (createDiffFileName unixTimeToStr d).toList = name at hname ⊢
  generalize (unixTimeToStr d.timestamp).toList = t at hlen hname hts
  obtain ⟨rest, hrest⟩ : ∃ rest, gidsText v ++ ['.', 'w', 'd', 'i', 'f', 'f'] = '-' :: rest := by
    obtain ⟨gid, w, rfl⟩ := List.exists_cons_of_ne_nil hvlen.1
    exact ⟨_, by rw [gidsText_cons, List.cons_append]⟩
  have hrlen := congrArg List.length hrest
  rw [List.length_append, List.length_cons, List.length_cons, List.length_cons, List.length_cons,
    List.length_cons,
    List.length_cons, List.length_nil, List.length_cons] at hrlen
  rw [hrest] at hname hgids
  have hget : ∀ k, name[14 + k]? = ('-' :: (if d.isMergeable then 'M' else '-') ::
      (if d.isCompDiff then 'C' else '-') :: '-' :: rest)[k]? :=
    fun k => by rw [hname, List.getElem?_append_right (by omega), hlen, Nat.add_sub_cancel_left]
  have hlong : ¬name.length < "YYYYMMDDhhmmss-MC-0-1.wdiff".length := by
    rw [hname, List.length_append, List.length_cons, List.length_cons, List.length_cons,
      List.length_cons, hlen]
    change ¬_ < 27
    omega
  have htake : name.take 14 = t := by rw [hname, List.take_left' hlen]
  have hdrop : name.drop 18 = rest := by
    rw [hname, show 18 = 14 + 4 from rfl, ← List.drop_drop, List.drop_left' hlen]
    rfl
  have hM : decide (name[15]? = some 'M') = d.isMergeable := by
    rw [hget 1]
    cases d.isMergeable <;> rfl
  have hC : decide (name[16]? = some 'C') = d.isCompDiff := by
    rw [hget 2]
    cases d.isCompDiff <;> rfl
  have hverify : ({ d with dataSize := 0 } : MetaDiff).verify = .ok () :=
    (MetaDiff.verify_eq_ok_iff _).2 ⟨hv.progressB, hv.progressE⟩
  have h14 : name[14]? = some '-' := hget 0
  have h17 : name[17]? = some '-' := hget 3
  have hparsed : parseGids 4 rest = .ok v := hgids
  rw [parseDiffFileName]
  simp only [hlong, if_false, htake, hts, h14, h17, ne_eq, not_true_eq_false, hdrop, hparsed,
    hsnaps, hM, hC, bind, Except.bind,
    hverify]
  rfl

/-- Names determine diffs. -/
theorem names_determine_diffs (unixTimeToStr : Nat → String) (mktime : List Char → Except String Nat) :
    (∀ d : MetaDiff, d.Valid → strToUnixTime mktime (unixTimeToStr d.timestamp).toList =
      .ok d.timestamp →
      parseDiffFileName mktime (createDiffFileName unixTimeToStr d).toList = .ok
      { d with dataSize := 0 }) ∧
    ∀ d e : MetaDiff, d.Valid → e.Valid → strToUnixTime mktime (unixTimeToStr d.timestamp).toList =
    .ok d.timestamp →
      strToUnixTime mktime (unixTimeToStr e.timestamp).toList = .ok e.timestamp →
      d.snapB ≠ e.snapB ∨ d.snapE ≠ e.snapE ∨ d.isMergeable ≠ e.isMergeable ∨
      d.isCompDiff ≠ e.isCompDiff ∨
        d.timestamp ≠ e.timestamp →
      createDiffFileName unixTimeToStr d ≠ createDiffFileName unixTimeToStr e := by
  refine ⟨fun d hd htd => parseDiffFileName_createDiffFileName hd htd,
    fun d e hd he htd hte hne hname => ?_⟩
  have hparsed := parseDiffFileName_createDiffFileName hd htd
  rw [hname, parseDiffFileName_createDiffFileName he hte, Except.ok.injEq] at hparsed
  rw [MetaDiff.mk.injEq] at hparsed
  obtain ⟨hM, hC, ht, hB, hE, -⟩ := hparsed
  obtain hne | hne | hne | hne | hne := hne
  · exact hne hB.symm
  · exact hne hE.symm
  · exact hne hM.symm
  · exact hne hC.symm
  · exact hne ht.symm

/-- The name of a diff with a dirty end. -/
theorem names_determine_diffs_dirty : parseDiffFileName (fun _ => .ok 1420070400)
    (createDiffFileName (fun _ => "20150101000000") ⟨true, false, 1420070400, ⟨1, 3, by decide⟩,
      .clean 4, 7⟩).toList =
      .ok ⟨true, false, 1420070400, ⟨1, 3, by decide⟩, .clean 4, 0⟩ :=
  (names_determine_diffs (fun _ => "20150101000000") fun _ => .ok 1420070400).1 _ (by decide) (by rfl)

end

end WalbTools.MetaText
