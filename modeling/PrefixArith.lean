import PrefixArith.Main
import PrefixArith.Proofs.Extension
import PrefixArith.Proofs.Frame
import PrefixArith.Proofs.Message
import PrefixArith.Proofs.Reordering
import PrefixArith.Proofs.Stream
import PrefixArith.Proofs.Substitution
import PrefixArith.Proofs.Transcript
