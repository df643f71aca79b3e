import DistributedSystem.Library.CString
import DistributedSystem.WireFormats

/-!
# The command program

`cmd.c`: `main` reads a command from its arguments and sends it to a worker as one datagram.
The message on the stack is not initialised, so what a command does not set is whatever was
there. `Valid` says what a command needs, and the datagrams of `main` are compared with it.
-/

namespace DistributedSystem.Cmd

open Library WireFormats.Transaction
open Library.CString Library.Numeral

/-! ## Commands -/

/-- The part of `enum cmdMsgKind` that has a command word. -/
inductive CmdType where
  | begintx | jointx | newA | newB | newIdStr | delayResponse | crash | commit | commitCrash
  | abort | abortCrash | voteAbort
  deriving DecidableEq, Repr

namespace CmdType

def msgID : CmdType → UInt32
  | begintx => 1000
  | jointx => 1001
  | newA => 1002
  | newB => 1003
  | newIdStr => 1004
  | delayResponse => 1005
  | crash => 1006
  | commit => 1007
  | commitCrash => 1008
  | abort => 1009
  | abortCrash => 1010
  | voteAbort => 1011

def word : CmdType → CString
  | begintx => .ofChars ['b', 'e', 'g', 'i', 'n']
  | jointx => .ofChars ['j', 'o', 'i', 'n']
  | newA => .ofChars ['n', 'e', 'w', 'a']
  | newB => .ofChars ['n', 'e', 'w', 'b']
  | newIdStr => .ofChars ['n', 'e', 'w', 'i', 'd']
  | delayResponse => .ofChars ['d', 'e', 'l', 'a', 'y']
  | crash => .ofChars ['c', 'r', 'a', 's', 'h']
  | commit => .ofChars ['c', 'o', 'm', 'm', 'i', 't']
  | commitCrash => .ofChars ['c', 'o', 'm', 'm', 'i', 't', 'c', 'r', 'a', 's', 'h']
  | abort => .ofChars ['a', 'b', 'o', 'r', 't']
  | abortCrash => .ofChars ['a', 'b', 'o', 'r', 't', 'c', 'r', 'a', 's', 'h']
  | voteAbort => .ofChars ['v', 'o', 't', 'e', 'a', 'b', 'o', 'r', 't']

/-- The order in which `main` compares the words. -/
def all : List CmdType :=
  [begintx, jointx, newA, newB, newIdStr, crash, delayResponse, commit, commitCrash, abort,
    abortCrash, voteAbort]

end CmdType

/-! ## The program -/

/-- What is printed. Of the usage text without a command, `printf` gets no argument for the
    name of the program. -/
inductive Printed where
  | usage (cmd : Option CString) (k : Option CmdType)
  /-- usage: invalid CMDTYPE -/
  | invalidCmdType
  /-- `argName` conversion error -/
  | conversionError (argName : String)
  /-- TX_MANAGER_HOST must be of length 63 -/
  | hostLength
  /-- NEW_IDSTR must be of length 63 -/
  | idLength
  /-- `err` conversion errors were encountered, program exiting. -/
  | conversionErrors (err : ℕ)
  /-- ERROR, no such host -/
  | noSuchHost
  /-- sendto() sent a different number of bytes than expected -/
  | sendto
  deriving DecidableEq

/-- The address and the port of a worker. -/
structure SockAddr where
  addr : ℕ
  port : ℕ
  deriving DecidableEq

/-- What the program finds around it: the memory of the message, name resolution, and what
    `sendto` returns. -/
structure Env where
  msg : MsgType
  gethostbyname : CString → Option ℕ
  sendto : SockAddr → List UInt8 → ℤ

/-- The datagram that has been sent, the exit status, and what has been printed. -/
structure Outcome where
  datagram : Option (SockAddr × List UInt8)
  status : ℕ
  printed : List Printed

/-- The locals of `main` that the arguments set. -/
structure Locals where
  msg : MsgType
  err : ℕ
  printed : List Printed

/-- `return -1` -/
def failure (printed : List Printed) : Outcome := ⟨none, 255, printed⟩

/-- `argv[i]`, where `argc` has been checked -/
def arg (argv : List CString) (i : ℕ) : CString := argv.getD i (.ofChars [])

/-- `strToUInt`. The `err++` moves the pointer and not the number it points to. -/
def strToUInt (arg : CString) (argName : String) (l : Locals) : UInt32 × Locals :=
  let (value, rest) := strtoul arg.bytes
  (.ofNat value,
    { l with printed := l.printed ++ if rest = arg.bytes then [.conversionError argName] else [] })

/-- The `switch` on the command; an error is what is printed before a `return -1`. -/
def readArguments (k : CmdType) (argv : List CString) (l : Locals) :
    Except (List Printed) Locals :=
  let usage := l.printed ++ [.usage argv.head? (some k)]
  match k with
  | .begintx | .jointx =>
    if argv.length < 7 then .error usage
    else
      let host := arg argv 4
      let l :=
        -- a name that is too long is left out, and the command goes on without it
        if HOSTLEN - 1 < host.strlen then { l with printed := l.printed ++ [.hostLength] }
        else { l with msg.strData := .ofHostName (strcpy l.msg.strData.hostName host) }
      let (port, l) := strToUInt (arg argv 5) "TX_MANAGER_PORT" l
      let l := { l with msg.port := port }
      let (tid, l) := strToUInt (arg argv 6) "TID" l
      .ok { l with msg.tid := tid }
  | .newA | .newB =>
    if argv.length < 5 then .error usage
    else
      let (value, l) := strToUInt (arg argv 4) "NEWVALUE" l
      .ok { l with msg.newValue := value.toInt32 }
  | .newIdStr =>
    if argv.length < 5 then .error usage
    else if IDLEN - 1 < (arg argv 4).strlen then .error (l.printed ++ [.idLength])
    else .ok { l with msg.strData := .ofNewID (strcpy l.msg.strData.newID (arg argv 4)) }
  | .delayResponse =>
    if argv.length < 5 then .error usage
    else
      let (delay, l) := strToUInt (arg argv 4) "DELAY" l
      .ok { l with msg.delay := delay.toInt32 }
  | _ => .ok l

/-- The end of `main`, from the creation of the socket on. -/
def send (env : Env) (workerHost : CString) (workerPort : UInt32) (l : Locals) : Outcome :=
  match env.gethostbyname workerHost with
  | none => ⟨none, 0, l.printed ++ [.noSuchHost]⟩
  | some addr =>
    let toAddr : SockAddr := ⟨addr, workerPort.toNat % 65536⟩
    let buffer := serializeMsg l.msg
    if env.sendto toAddr buffer ≠ MSG_SIZE then failure (l.printed ++ [.sendto])
    else ⟨some (toAddr, buffer), 23, l.printed⟩

def main (env : Env) (argv : List CString) : Outcome :=
  if argv.length < 2 then failure [.usage argv.head? none]
  else
    match CmdType.all.find? fun k => k.word = arg argv 1 with
    | none => failure [.invalidCmdType]
    | some k =>
      if argv.length < 4 then failure [.usage argv.head? (some k)]
      else
        let l : Locals := ⟨{ env.msg with msgID := k.msgID }, 0, []⟩
        let (workerPort, l) := strToUInt (arg argv 3) "WORKER_PORT" l
        match readArguments k argv l with
        | .error printed => failure printed
        | .ok l =>
          if l.err ≠ 0 then failure (l.printed ++ [.conversionErrors l.err])
          else send env (arg argv 2) workerPort l

/-! ## What a command needs -/

/-- An argument behind WORKER_PORT. -/
inductive Field where
  | hostName | port | tid | newValue | newID | delay
  deriving DecidableEq

namespace Field

/-- A host name or an id string; the others are numbers. -/
def isText : Field → Bool
  | hostName | newID => true
  | _ => false

/-- The text that a message has in a field. -/
def text (m : MsgType) : Field → List UInt8
  | hostName => arrayString m.strData.hostName
  | newID => arrayString m.strData.newID
  | _ => []

/-- The number that a message has in a field. -/
def number (m : MsgType) : Field → ℤ
  | port => m.port.toNat
  | tid => m.tid.toNat
  | newValue => m.newValue.toInt
  | delay => m.delay.toInt
  | _ => 0

/-- A text of at most 63 characters, or something that starts with a number. -/
def Accepts (f : Field) (arg : CString) : Prop :=
  if f.isText then arg.strlen ≤ 63 else ∃ n, StartsWith arg.bytes n

/-- The message carries the argument in the field, numbers modulo `2 ^ 32`. -/
def Carries (f : Field) (arg : CString) (m : MsgType) : Prop :=
  if f.isText then f.text m = arg.bytes
  else ∀ n, StartsWith arg.bytes n → f.number m % 2 ^ 32 = n % 2 ^ 32

end Field

/-- The arguments that a command has behind WORKER_PORT. -/
def fields : CmdType → List Field
  | .begintx | .jointx => [.hostName, .port, .tid]
  | .newA | .newB => [.newValue]
  | .newIdStr => [.newID]
  | .delayResponse => [.delay]
  | _ => []

/-- A complete command whose arguments are all right. -/
structure Valid (argv : List CString) (k : CmdType) : Prop where
  word : argv[1]? = some k.word
  present : 4 + (fields k).length ≤ argv.length
  workerPort : ∃ n, StartsWith (arg argv 3).bytes n
  arguments : ∀ i (f : Field), (fields k)[i]? = some f → f.Accepts (arg argv (4 + i))

/-- A datagram is sent for a valid command only, and carries it; otherwise the program exits
    with an error. -/
def RejectsBadArguments (argv : List CString) : Prop :=
  ∀ env,
    (∀ dst buffer, (main env argv).datagram = some (dst, buffer) →
      ∃ k, Valid argv k ∧ (deserializeMsg buffer).msgID = k.msgID ∧
        ∀ i (f : Field), (fields k)[i]? = some f → f.Carries (arg argv (4 + i)) (deserializeMsg buffer)) ∧
    ((∀ k, ¬ Valid argv k) → (main env argv).datagram = none ∧ (main env argv).status ≠ 0)

/-- The checks that `main` makes: a known command word, enough arguments, and the length of
    an id string. -/
structure Passes (argv : List CString) (k : CmdType) : Prop where
  word : argv[1]? = some k.word
  present : 4 + (fields k).length ≤ argv.length
  newID : k = .newIdStr → (arg argv 4).strlen ≤ 63

/-- A number that `strtoul` keeps modulo `2 ^ 32`: it is in the range of an `unsigned long`,
    or what it is replaced by happens to be the same. -/
def Kept (n : ℤ) : Prop := n.natAbs ≤ ULONG_MAX ∨ n % 2 ^ 32 = 2 ^ 32 - 1

/-- What passes the checks of `main` is valid, with numbers that `strtoul` keeps. -/
def Sound (argv : List CString) : Prop :=
  ∀ k, Passes argv k → Valid argv k ∧
    ∀ i (f : Field) n, (fields k)[i]? = some f → f.isText = false → StartsWith (arg argv (4 + i)).bytes n →
      Kept n

variable {argv : List CString} {k : CmdType} {env : Env} {l : Locals} {m : MsgType} {f : Field}

/-! ## What a step stores -/

theorem word_injective {k k' : CmdType} (h : k.word = k'.word) : k = k' := by
  have hall : ∀ a ∈ CmdType.all, ∀ b ∈ CmdType.all, a.word = b.word → a = b := by decide
  have hmem : ∀ a : CmdType, a ∈ CmdType.all := by
    intro a
    cases a <;> decide
  exact hall k (hmem k) k' (hmem k') h

/-- The comparison with the words finds the command. -/
theorem find_word (k : CmdType) : CmdType.all.find? (fun k' => k'.word = k.word) = some k := by
  cases k <;> decide

@[simp] theorem strToUInt_msg (arg : CString) (argName : String) (l : Locals) :
    (strToUInt arg argName l).2.msg = l.msg := rfl

@[simp] theorem strToUInt_err (arg : CString) (argName : String) (l : Locals) :
    (strToUInt arg argName l).2.err = l.err := rfl

theorem strToUInt_value (arg : CString) (argName : String) (l : Locals) :
    ((strToUInt arg argName l).1.toNat : ℤ) % 2 ^ 32 = (strtoul arg.bytes).1 % 2 ^ 32 := by
  show ((UInt32.ofNat (strtoul arg.bytes).1).toNat : ℤ) % 2 ^ 32 = _
  rw [UInt32.toNat_ofNat']
  omega

/-- The conversion to a signed number keeps it modulo `2 ^ 32`. -/
theorem toInt32_value (v : UInt32) : v.toInt32.toInt % 2 ^ 32 = v.toNat % 2 ^ 32 := by
  show v.toBitVec.toInt % 2 ^ 32 = v.toBitVec.toNat % 2 ^ 32
  rw [BitVec.toInt_eq_toNat_bmod]
  exact Int.bmod_emod

/-- What the program puts into a field for an argument. -/
def Field.Stores (f : Field) (arg : CString) (m : MsgType) : Prop :=
  if f.isText then arg.strlen ≤ 63 → f.text m = arg.bytes
  else f.number m % 2 ^ 32 = (strtoul arg.bytes).1 % 2 ^ 32

/-- With enough arguments the `switch` goes on, and stores all of them. -/
theorem readArguments_ok (hpresent : 4 + (fields k).length ≤ argv.length)
    (hid : k = .newIdStr → (arg argv 4).strlen ≤ 63) :
    ∃ l', readArguments k argv l = .ok l' ∧ l'.err = l.err ∧ l'.msg.msgID = l.msg.msgID ∧
      ∀ i (f : Field), (fields k)[i]? = some f → f.Stores (arg argv (4 + i)) l'.msg := by
  have hlong : HOSTLEN - 1 < (arg argv 4).strlen ↔ ¬ (arg argv 4).strlen ≤ 63 := Nat.not_le.symm
  cases k with
  | begintx | jointx =>
    have hargc : ¬ argv.length < 7 := Nat.not_lt.mpr hpresent
    simp only [readArguments, if_neg hargc, hlong]
    -- the name is stored where it fits, the numbers in any case
    refine ⟨_, rfl, ?_, ?_, fun i f hf => ?_⟩
    · split <;> rfl
    · split <;> rfl
    · match i, hf with
      | 0, hf =>
        obtain rfl : Field.hostName = f := Option.some.inj hf
        intro hfits
        simp only [not_not.mpr hfits, if_false]
        exact arrayString_strcpy _ (Nat.lt_succ_of_le hfits)
      | 1, hf =>
        obtain rfl : Field.port = f := Option.some.inj hf
        exact strToUInt_value (arg argv 5) "TX_MANAGER_PORT" l
      | 2, hf =>
        obtain rfl : Field.tid = f := Option.some.inj hf
        exact strToUInt_value (arg argv 6) "TID" l
  | newA | newB =>
    have hargc : ¬ argv.length < 5 := Nat.not_lt.mpr hpresent
    simp only [readArguments, if_neg hargc]
    refine ⟨_, rfl, rfl, rfl, fun i f hf => ?_⟩
    match i, hf with
    | 0, hf =>
      obtain rfl : Field.newValue = f := Option.some.inj hf
      exact (toInt32_value _).trans (strToUInt_value (arg argv 4) "NEWVALUE" l)
  | newIdStr =>
    have hargc : ¬ argv.length < 5 := Nat.not_lt.mpr hpresent
    have hfits := hid rfl
    have hshort : ¬ IDLEN - 1 < (arg argv 4).strlen := Nat.not_lt.mpr hfits
    simp only [readArguments, if_neg hargc, if_neg hshort]
    refine ⟨_, rfl, rfl, rfl, fun i f hf => ?_⟩
    match i, hf with
    | 0, hf =>
      obtain rfl : Field.newID = f := Option.some.inj hf
      exact fun _ => arrayString_strcpy _ (Nat.lt_succ_of_le hfits)
  | delayResponse =>
    have hargc : ¬ argv.length < 5 := Nat.not_lt.mpr hpresent
    simp only [readArguments, if_neg hargc]
    refine ⟨_, rfl, rfl, rfl, fun i f hf => ?_⟩
    match i, hf with
    | 0, hf =>
      obtain rfl : Field.delay = f := Option.some.inj hf
      exact (toInt32_value _).trans (strToUInt_value (arg argv 4) "DELAY" l)
  | _ => exact ⟨l, rfl, rfl, rfl, fun i f hf => absurd hf (by simp [fields])⟩

/-- Otherwise it is a `return -1`. -/
theorem readArguments_error
    (h : ¬ (4 + (fields k).length ≤ argv.length ∧ (k = .newIdStr → (arg argv 4).strlen ≤ 63)))
    (hargc : 4 ≤ argv.length) : ∃ printed, readArguments k argv l = .error printed := by
  cases k with
  | begintx | jointx =>
    have hfew : argv.length < 7 := by
      by_contra hno
      exact h ⟨Nat.not_lt.mp hno, fun hk => absurd hk (by simp)⟩
    exact ⟨_, if_pos hfew⟩
  | newA | newB | delayResponse =>
    have hfew : argv.length < 5 := by
      by_contra hno
      exact h ⟨Nat.not_lt.mp hno, fun hk => absurd hk (by simp)⟩
    exact ⟨_, if_pos hfew⟩
  | newIdStr =>
    -- the only command with a second check
    by_cases hfew : argv.length < 5
    · exact ⟨_, if_pos hfew⟩
    · have hlong : IDLEN - 1 < (arg argv 4).strlen := by
        by_contra hno
        exact h ⟨Nat.not_lt.mp hfew, fun _ => Nat.not_lt.mp hno⟩
      exact ⟨_, (if_neg hfew).trans (if_pos hlong)⟩
  | _ => exact absurd ⟨hargc, fun hk => absurd hk (by simp)⟩ h

/-! ## What `main` does -/

theorem arg_of_word (h : argv[1]? = some k.word) : arg argv 1 = k.word := by
  rw [arg, List.getD_eq_getElem?_getD, h]
  rfl

/-- What passes the checks is sent, with its arguments as they were stored. -/
theorem main_of_passes (h : Passes argv k) (env : Env) :
    ∃ l port, main env argv = send env (arg argv 2) port l ∧ l.msg.msgID = k.msgID ∧
      ∀ i (f : Field), (fields k)[i]? = some f → f.Stores (arg argv (4 + i)) l.msg := by
  obtain ⟨hword, hpresent, hid⟩ := h
  obtain ⟨l, hread, herr, hmsg, hstored⟩ := readArguments_ok (k := k)
    (l := (strToUInt (arg argv 3) "WORKER_PORT" ⟨{ env.msg with msgID := k.msgID }, 0, []⟩).2)
    hpresent hid
  refine ⟨l, (strToUInt (arg argv 3) "WORKER_PORT" ⟨{ env.msg with msgID := k.msgID }, 0, []⟩).1,
    ?_, hmsg, hstored⟩
  rw [strToUInt_err] at herr
  unfold main
  rw [if_neg (by omega), arg_of_word hword, find_word]
  simp only
  rw [if_neg (by omega)]
  simp only [hread]
  rw [if_neg (by simp [herr])]

/-- Nothing else is. -/
theorem main_of_not_passes (h : ∀ k, ¬ Passes argv k) (env : Env) :
    ∃ printed, main env argv = failure printed := by
  unfold main
  by_cases hargc : argv.length < 2
  · exact ⟨_, if_pos hargc⟩
  rw [if_neg hargc]
  cases hfind : CmdType.all.find? fun k => k.word = arg argv 1 with
  | none => exact ⟨_, rfl⟩
  | some k =>
    simp only
    -- a known word, so what is missing is found by the `switch`
    by_cases hfew : argv.length < 4
    · exact ⟨_, if_pos hfew⟩
    · have hword : argv[1]? = some k.word := by
        have hk := List.find?_some hfind
        rw [decide_eq_true_eq] at hk
        rw [hk, arg, List.getD_eq_getElem?_getD, List.getElem?_eq_getElem (by omega)]
        rfl
      obtain ⟨printed, hread⟩ := readArguments_error (k := k)
        (l := (strToUInt (arg argv 3) "WORKER_PORT" ⟨{ env.msg with msgID := k.msgID }, 0, []⟩).2)
        (fun hok => h k ⟨hword, hok.1, hok.2⟩) (Nat.not_lt.mp hfew)
      exact ⟨printed, by simp only [if_neg hfew, hread]⟩

/-! ## The law -/

theorem toULong_kept_iff (n : ℤ) : (toULong n : ℤ) % 2 ^ 32 = n % 2 ^ 32 ↔ Kept n := by
  unfold toULong Kept ULONG_MAX
  split
  · omega
  · omega

/-- A field carries its argument when the argument is a short text, or a number that is kept. -/
theorem carries_iff {a : CString} (hstores : f.Stores a m) (haccepts : f.Accepts a) :
    f.Carries a m ↔ (f.isText = false → ∀ n, StartsWith a.bytes n → Kept n) := by
  unfold Field.Stores at hstores
  unfold Field.Accepts at haccepts
  unfold Field.Carries
  cases htext : f.isText with
  | true =>
    simp only [htext, if_true] at hstores haccepts ⊢
    simp [hstores haccepts]
  | false =>
    simp only [htext, Bool.false_eq_true, if_false] at hstores ⊢
    simp only [true_imp_iff]
    refine forall₂_congr fun n hn => ?_
    rw [hstores, (strtoul_of_startsWith hn).1, toULong_kept_iff]

theorem deserializeMsg_serializeMsg (m : MsgType) : deserializeMsg (serializeMsg m) = m := by
  rw [serializeMsg_eq, deserializeMsg_eq, Codec.decode_encode]

/-- What `send` sends is the message. -/
theorem datagram_send {host : CString} {port : UInt32} {dst : SockAddr} {buffer : List UInt8}
    (h : (send env host port l).datagram = some (dst, buffer)) : buffer = serializeMsg l.msg := by
  unfold send at h
  split at h
  · cases h
  · simp only [failure] at h
    split at h
    · cases h
    · cases h
      rfl

/-- Surroundings in which everything works. -/
def working : Env where
  msg := ⟨0, 0, 0, 0, 0, ⟨fun _ => 0⟩⟩
  gethostbyname _ := some 2130706433
  sendto _ _ := MSG_SIZE

/-- There the message is sent. -/
theorem datagram_send_working (host : CString) (port : UInt32) (l : Locals) :
    ∃ dst, (send working host port l).datagram = some (dst, serializeMsg l.msg) := ⟨_, rfl⟩

/-- **cmd rejects bad arguments** exactly when the arguments that pass the checks of `main`
    are valid, with numbers that `strtoul` keeps. -/
theorem rejectsBadArguments_iff (argv : List CString) : RejectsBadArguments argv ↔ Sound argv := by
  constructor
  · intro hrejects k hpasses
    obtain ⟨l, port, hmain, -, hstored⟩ := main_of_passes hpasses working
    obtain ⟨dst, hsend⟩ := datagram_send_working (arg argv 2) port l
    -- the message goes out, so the command in it is valid
    obtain ⟨k', hvalid, -, hcarries⟩ := (hrejects working).1 dst _ (by rw [hmain]; exact hsend)
    obtain rfl : k = k' :=
      word_injective (Option.some.inj (hpasses.word.symm.trans hvalid.word))
    refine ⟨hvalid, fun i f n hf htext hn => ?_⟩
    have hfield := hcarries i f hf
    rw [deserializeMsg_serializeMsg, carries_iff (hstored i f hf) (hvalid.arguments i f hf)] at hfield
    exact hfield htext n hn
  · intro hsound env
    by_cases hpass : ∃ k, Passes argv k
    · obtain ⟨k, hpasses⟩ := hpass
      obtain ⟨hvalid, hkept⟩ := hsound k hpasses
      obtain ⟨l, port, hmain, hmsg, hstored⟩ := main_of_passes hpasses env
      rw [hmain]
      refine ⟨fun dst buffer hsent => ⟨k, hvalid, ?_, fun i f hf => ?_⟩, fun hno => ?_⟩
      · rw [datagram_send hsent, deserializeMsg_serializeMsg, hmsg]
      · rw [datagram_send hsent, deserializeMsg_serializeMsg,
          carries_iff (hstored i f hf) (hvalid.arguments i f hf)]
        exact fun htext n hn => hkept i f n hf htext hn
      · exact absurd hvalid (hno k)
    · obtain ⟨printed, hmain⟩ := main_of_not_passes (not_exists.mp hpass) env
      rw [hmain]
      exact ⟨fun dst buffer hsent => absurd hsent (by simp [failure]), fun _ => ⟨rfl, by simp [failure]⟩⟩

/-- A new value that is no number. -/
def newaAbc : List CString :=
  [.ofChars ['c', 'm', 'd'], .ofChars ['n', 'e', 'w', 'a'], .ofChars ['h', 'o', 's', 't'],
    .ofChars ['8', '0', '8', '0'], .ofChars ['a', 'b', 'c']]

/-- It is sent as the value 0. -/
theorem not_rejectsBadArguments : ¬ RejectsBadArguments newaAbc := by
  intro hrejects
  obtain ⟨dst, hsent⟩ : ∃ x, (main working newaAbc).datagram = some x :=
    Option.isSome_iff_exists.mp (by decide)
  obtain ⟨k, hvalid, -⟩ := (hrejects working).1 dst.1 dst.2 hsent
  obtain rfl : CmdType.newA = k := word_injective (Option.some.inj hvalid.word)
  obtain ⟨n, hn⟩ := hvalid.arguments 0 .newValue rfl
  exact (strtoul_of_startsWith hn).2 (by decide)

end DistributedSystem.Cmd
