import VeBpf.Proof.HandOver
import VeBpf.Proof.Calls
import VeBpf.Proof.Firewall
import VeBpf.Proof.Encoders
import VeBpf.Proof.SlowArithmetic
import VeBpf.Proof.Jumps
import VeBpf.Proof.Immediates
import VeBpf.Proof.Lddw
import VeBpf.Proof.Errors
import VeBpf.Proof.NetworkOrder
import VeBpf.Proof.Upload
import VeBpf.Proof.Progress
import VeBpf.Proof.Transactions
import VeBpf.Proof.Divider
import VeBpf.Proof.Deployment
import VeBpf.Proof.Interpreter
import VeBpf.Proof.Agreement
import VeBpf.Proof.Loading
